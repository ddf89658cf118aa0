import Liigboot.Lib.Loop
import Liigboot.Lib.StringOps
import Mathlib.Algebra.GroupWithZero.Nat
import Mathlib.Data.List.GetD

/-!
# The splash screen

`rledecode` makes one row of pixels from the nybbles of the file. The row is made of pieces, single
pixels and runs, and the pixels that are left are counted behind a piece: the last piece can run
past the width, by 270 pixels at most. Behind the end of the file there are zeros.
-/

namespace Liigboot.Console

/-! ## The source -/

/-- `getc`: `AL`, the carry flag, and what is left of the file. -/
def getc : List UInt8 → UInt8 × Bool × List UInt8
  | [] => (0, true, [])
  | al :: input => (al, false, input)

/-- `.getnybble`: `AL`, `DH`, and what is left of the file. -/
def getnybble (dh : UInt8) (input : List UInt8) : UInt8 × UInt8 × List UInt8 :=
  if dh &&& 0x10 ≠ 0 then
    let dh := dh &&& 0x0f
    (dh, dh, input)
  else
    let (al, _, input) := getc input
    let dh := al >>> 4 ||| 0x10
    (al &&& 0x0f, dh, input)

/-- The registers of `rledecode` at `.loop`, what is left of the file, and the stores so far. `DI`
is counted from `VGARowBuffer` on. -/
structure Row where
  cx : Nat
  di : Nat
  dl : UInt8
  dh : UInt8
  input : List UInt8
  stores : List (Nat × UInt8)

/-- `.dorun`, with `BX`. -/
def dorun (bx : Nat) (s : Row) : Step Row Row :=
  let s := { s with stores := s.stores ++ storesAt s.di (List.replicate bx s.dl), di := s.di + bx }
  if s.cx > bx then .next { s with cx := s.cx - bx } else .stop s

/-- A pass of the loop of `rledecode`. -/
def rleStep (s : Row) : Step Row Row :=
  let (al, dh, input) := getnybble s.dh s.input
  if al = s.dl then
    let (al, dh, input) := getnybble dh input
    let bl := al
    if bl = 0 then
      let (al, dh, input) := getnybble dh input
      let bl := al
      let (al, dh, input) := getnybble dh input
      let bl := bl ||| al <<< 4
      dorun (bl.toNat + 16) { s with dh, input }
    else dorun bl.toNat { s with dh, input }
  else
    let cx := (s.cx + 0xffff) % 0x10000
    let s := { s with
      stores := s.stores ++ storesAt s.di [al], di := s.di + 1, dl := al, cx, dh, input }
    if cx ≠ 0 then .next s else .stop s

/-- `rledecode`. A piece has one pixel at least. -/
def rledecode (cx : Nat) (input : List UInt8) : Option Row :=
  runLoop rleStep 0x10000 { cx, di := 0, dl := 0, dh := 0, input, stores := [] }

/-- The length of `VGARowBuffer`. -/
def vgaRowBuffer : Nat := 640 + 80

/-- The loop of `.gethdr`: the bytes, the carry flag of the last one, and what is left of the
file. -/
def gethdr : Nat → Bool → List UInt8 → List UInt8 × Bool × List UInt8
  | 0, cf, input => ([], cf, input)
  | cx + 1, _, input =>
    let (al, cf, input) := getc input
    let (hdr, cf, input) := gethdr cx cf input
    (al :: hdr, cf, input)

/-- `GraphXSize`, `GraphYSize`, and what is left of the file behind the header. -/
structure LssHeader where
  graphXSize : Nat
  graphYSize : Nat
  input : List UInt8

/-- `.graphalready`: the header, none if the file ends in it or the magic number is wrong. -/
def lssHeader (file : List UInt8) : Option LssHeader :=
  let (hdr, cf, input) := gethdr (4 + 2 * 2 + 16 * 3) false file
  if cf then none
  else if readLe hdr 0 4 ≠ 0x1413f33d then none
  else some { graphXSize := readLe hdr 4 2, graphYSize := readLe hdr 6 2, input }

/-- The rows that are left, and what is left of the file, at `.drawpixelrow`. -/
structure Draw where
  cx : Nat
  input : List UInt8

/-- A pass of the loop of `.drawpixelrow`, with `GraphXSize`. -/
def drawStep (graphXSize : Nat) (s : Draw) : Step Draw Unit :=
  match rledecode graphXSize s.input with
  | none => .hang
  | some row =>
    let cx := (s.cx + 0xffff) % 0x10000
    if cx ≠ 0 then .next { cx, input := row.input } else .stop ()

/-- The decoding of a row ends, and writes only in the row buffer. -/
def RowStays (graphXSize : Nat) (input : List UInt8) : Prop :=
  ∃ row, rledecode graphXSize input = some row ∧ ∀ x ∈ row.stores, x.1 < vgaRowBuffer

/-- All rows of a file do. -/
def FileStays (file : List UInt8) : Prop :=
  ∀ hdr, lssHeader file = some hdr → ∀ s,
    Reaches (drawStep hdr.graphXSize) ⟨hdr.graphYSize, hdr.input⟩ s → RowStays hdr.graphXSize s.input

/-! ## Nybbles -/

/-- The nybbles of a file, the low one of a byte first, and zeros behind its end. -/
def nybbles (input : List UInt8) (k : Nat) : UInt8 :=
  let b := input.getD (k / 2) 0
  if k % 2 = 0 then b &&& 0x0f else b >>> 4

/-- The reader is at a nybble: `DH` has it if the low one of its byte has been read. -/
structure At (file : List UInt8) (k : Nat) (dh : UInt8) (input : List UInt8) : Prop where
  input_eq : input = file.drop ((k + 1) / 2)
  held : k % 2 = 1 → dh &&& 0x10 ≠ 0 ∧ dh &&& 0x0f = nybbles file k
  free : k % 2 = 0 → dh &&& 0x10 = 0

variable {file input : List UInt8} {k : Nat} {dh last : UInt8} {s : Row}

/-- What the masks do with a byte. -/
theorem masked_nybbles (b : UInt8) :
    (b >>> 4 ||| 0x10) &&& 0x10 ≠ 0 ∧ (b >>> 4 ||| (0x10 : UInt8)) &&& (0x0f : UInt8) = b >>> 4 ∧
      b &&& 0x0f < 16 ∧ b >>> 4 < 16 ∧ (b &&& 0x0f) &&& 0x10 = 0 := by
  have hall : ∀ n < 256, let b := UInt8.ofNat n
      (b >>> 4 ||| 0x10) &&& 0x10 ≠ 0 ∧ (b >>> 4 ||| (0x10 : UInt8)) &&& (0x0f : UInt8) = b >>> 4 ∧
        b &&& 0x0f < 16 ∧ b >>> 4 < 16 ∧ (b &&& 0x0f) &&& 0x10 = 0 := by
    decide +kernel
  have hb := hall b.toNat b.toNat_lt
  rwa [UInt8.ofNat_toNat] at hb

theorem nybbles_lt (input : List UInt8) (k : Nat) : nybbles input k < 16 := by
  simp only [nybbles]
  split_ifs
  · exact (masked_nybbles _).2.2.1
  · exact (masked_nybbles _).2.2.2.1

theorem At.start (file : List UInt8) : At file 0 0 file := ⟨rfl, nofun, fun _ => rfl⟩

/-- `.getnybble` reads the next nybble. -/
theorem At.getnybble (h : At file k dh input) : ∃ dh' input',
    getnybble dh input = (nybbles file k, dh', input') ∧ At file (k + 1) dh' input' := by
  obtain ⟨rfl, hheld, hfree⟩ := h
  rcases Nat.mod_two_eq_zero_or_one k with heven | hodd
  · have hpos : (k + 1) / 2 = k / 2 := by omega
    have hpos' : (k + 1 + 1) / 2 = k / 2 + 1 := by omega
    have hodd : (k + 1) % 2 = 1 := by omega
    have hmask := masked_nybbles (file.getD (k / 2) 0)
    have hget : ∃ cf, getc (file.drop (k / 2)) =
        (file.getD (k / 2) 0, cf, file.drop (k / 2 + 1)) := by
      rcases Nat.lt_or_ge (k / 2) file.length with hlt | hge
      · rw [List.drop_eq_getElem_cons hlt, List.getD_eq_getElem _ _ hlt]
        exact ⟨false, rfl⟩
      · rw [List.drop_eq_nil_of_le hge, List.drop_eq_nil_of_le (by omega),
          List.getD_eq_default _ _ hge]
        exact ⟨true, rfl⟩
    obtain ⟨cf, hget⟩ := hget
    refine ⟨file.getD (k / 2) 0 >>> 4 ||| 0x10, file.drop (k / 2 + 1), ?_, by rw [hpos'],
      fun _ => ⟨hmask.1, ?_⟩, fun hc => absurd hc (by omega)⟩
    · simp [Console.getnybble, hfree heven, hpos, hget, nybbles, heven]
    · simp only [nybbles, hodd, hpos]
      exact hmask.2.1
  · obtain ⟨hdh, hnext⟩ := hheld hodd
    have hpos : (k + 1 + 1) / 2 = (k + 1) / 2 := by omega
    refine ⟨nybbles file k, file.drop ((k + 1) / 2), ?_, by rw [hpos],
      fun hc => absurd hc (by omega), fun _ => ?_⟩
    · simp [Console.getnybble, hdh, hnext]
    · rw [← hnext]
      exact (masked_nybbles dh).2.2.2.2

/-! ## Pieces -/

/-- A piece of a row: a pixel of another colour than the last one, or a run of the last one. -/
inductive Piece
  | pixel (color : UInt8)
  | run (count : Nat)
  deriving DecidableEq, Repr

/-- The number of pixels of a piece. -/
def Piece.length : Piece → Nat
  | .pixel _ => 1
  | .run n => n

/-- The last colour behind a piece. -/
def Piece.color (last : UInt8) : Piece → UInt8
  | .pixel c => c
  | .run _ => last

/-- What can be a piece behind a colour. -/
def Piece.Valid (last : UInt8) : Piece → Prop
  | .pixel c => c ≠ last ∧ c < 16
  | .run n => 0 < n ∧ n ≤ 271

/-- The nybbles of a piece. -/
def Piece.spell (last : UInt8) : Piece → List UInt8
  | .pixel c => [c]
  | .run n =>
    if n < 16 then [last, UInt8.ofNat n]
    else [last, 0, UInt8.ofNat ((n - 16) % 16), UInt8.ofNat ((n - 16) / 16)]

/-- The nybbles of a row. -/
def spellRow : UInt8 → List Piece → List UInt8
  | _, [] => []
  | last, p :: row => p.spell last ++ spellRow (p.color last) row

/-- What can be a row behind a colour. -/
def ValidRow : UInt8 → List Piece → Prop
  | _, [] => True
  | last, p :: row => p.Valid last ∧ ValidRow (p.color last) row

/-- The number of pixels of a row. -/
def pixels (row : List Piece) : Nat := (row.map Piece.length).sum

/-- The last piece of a row is the one that reaches its width. -/
def Covers (width : Nat) (row : List Piece) : Prop :=
  pixels row.dropLast < width ∧ width ≤ pixels row

/-- A row of a width. The count of pixels has 16 bits and is tested behind a piece: with zero it is
65536 when the row begins with a pixel, and a run at the beginning ends the row. -/
def FullRow (width : Nat) (row : List Piece) : Prop :=
  if width = 0 then
    (∃ n, row = [.run n]) ∨ (∃ c rest, row = .pixel c :: rest) ∧ Covers 0x10000 row
  else Covers width row

/-- From a nybble on, the file has a row, behind a colour. -/
def RowAt (file : List UInt8) (k : Nat) (last : UInt8) (row : List Piece) : Prop :=
  ValidRow last row ∧ Holds (nybbles file) k (spellRow last row)

/-- The nybbles of the length of a long run. -/
theorem long_run {lo hi : Nat} (hlo : lo < 16) (hhi : hi < 16) :
    (UInt8.ofNat lo ||| UInt8.ofNat hi <<< 4).toNat = lo + 16 * hi := by
  have hall : ∀ lo < 16, ∀ hi < 16,
      (UInt8.ofNat lo ||| UInt8.ofNat hi <<< 4).toNat = lo + 16 * hi := by decide +kernel
  exact hall lo hlo hi hhi

/-- The next nybbles are a piece. -/
theorem exists_piece (file : List UInt8) (k : Nat) (last : UInt8) :
    ∃ p : Piece, p.Valid last ∧ Holds (nybbles file) k (p.spell last) := by
  have hnyb : ∀ i, (nybbles file i).toNat < 16 := fun i => nybbles_lt file i
  by_cases hlast : nybbles file k = last
  · by_cases hzero : nybbles file (k + 1) = 0
    · have hlo := hnyb (k + 2)
      have hhi := hnyb (k + 3)
      refine ⟨.run ((nybbles file (k + 2)).toNat + 16 * (nybbles file (k + 3)).toNat + 16),
        ⟨by omega, by omega⟩, ?_⟩
      have hmod : ((nybbles file (k + 2)).toNat + 16 * (nybbles file (k + 3)).toNat + 16 - 16) % 16 =
          (nybbles file (k + 2)).toNat := by omega
      have hdiv : ((nybbles file (k + 2)).toNat + 16 * (nybbles file (k + 3)).toNat + 16 - 16) / 16 =
          (nybbles file (k + 3)).toNat := by omega
      rw [Piece.spell, if_neg (by omega), hmod, hdiv, UInt8.ofNat_toNat, UInt8.ofNat_toNat]
      simp [holds_cons, holds_nil, hlast, hzero]
    · have hne : (nybbles file (k + 1)).toNat ≠ 0 := fun h => hzero (UInt8.toNat_inj.mp h)
      have hlt := hnyb (k + 1)
      refine ⟨.run (nybbles file (k + 1)).toNat, ⟨by omega, by omega⟩, ?_⟩
      rw [Piece.spell, if_pos hlt, UInt8.ofNat_toNat]
      simp [holds_cons, holds_nil, hlast]
  · refine ⟨.pixel (nybbles file k), ⟨hlast, nybbles_lt file k⟩, ?_⟩
    simp [Piece.spell, holds_cons, holds_nil]

/-- The addresses of some stores one behind the other. -/
theorem storesAt_fst {α : Type*} (a : Nat) (bs : List α) :
    (storesAt a bs).map Prod.fst = List.range' a bs.length := by
  induction bs generalizing a with
  | nil => rfl
  | cons b bs ih => rw [storesAt, List.map_cons, ih, List.length_cons, List.range'_succ]

/-- A pass that comes to `.dorun`. -/
theorem rleStep_run {n : Nat} (hstep : rleStep s = dorun n { s with dh, input })
    (hat : At file k dh input) : ∃ u, rleStep s = (if n < s.cx then .next u else .stop u) ∧
      u.di = s.di + n ∧ u.dl = s.dl ∧ At file k u.dh u.input ∧ (n < s.cx → u.cx = s.cx - n) ∧
      u.stores.map Prod.fst = s.stores.map Prod.fst ++ List.range' s.di n := by
  let t : Row := { s with
    dh, input, stores := s.stores ++ storesAt s.di (List.replicate n s.dl), di := s.di + n }
  have hstores : t.stores.map Prod.fst = s.stores.map Prod.fst ++ List.range' s.di n := by
    simp [t, storesAt_fst]
  by_cases hlt : n < s.cx
  · refine ⟨{ t with cx := s.cx - n }, ?_, rfl, rfl, hat, fun _ => rfl, hstores⟩
    simp only [hstep, dorun, t, if_pos hlt]
  · refine ⟨t, ?_, rfl, rfl, hat, fun h => absurd h hlt, hstores⟩
    simp only [hstep, dorun, t, if_neg hlt]

/-- A pass of the loop takes one piece. It ends the row when no pixels are left behind it. -/
theorem rleStep_piece {p : Piece} {w : Nat} (hat : At file k s.dh s.input) (hp : p.Valid s.dl)
    (hspell : Holds (nybbles file) k (p.spell s.dl)) (hcx : s.cx = w % 0x10000)
    (hpixel : ∀ c, p = .pixel c → 0 < w ∧ w ≤ 0x10000) (hrun : ∀ n, p = .run n → w < 0x10000) :
    ∃ u, rleStep s = (if p.length < w then .next u else .stop u) ∧
      u.di = s.di + p.length ∧ u.dl = p.color s.dl ∧
      At file (k + (p.spell s.dl).length) u.dh u.input ∧
      (p.length < w → u.cx = w - p.length) ∧
      u.stores.map Prod.fst = s.stores.map Prod.fst ++ List.range' s.di p.length := by
  obtain ⟨dh₁, input₁, hget₁, hat₁⟩ := hat.getnybble
  cases p with
  | pixel c =>
    have hc : nybbles file k = c := (holds_cons.mp hspell).1
    obtain ⟨hw, hfull⟩ := hpixel c rfl
    have hcount : (s.cx + 0xffff) % 0x10000 = w - 1 := by omega
    refine ⟨{ s with
      stores := s.stores ++ storesAt s.di [c], di := s.di + 1, dl := c, cx := w - 1, dh := dh₁,
      input := input₁ }, ?_, rfl, rfl, hat₁, fun _ => rfl, ?_⟩
    · have hend : w - 1 ≠ 0 ↔ (Piece.pixel c).length < w := by
        simp only [Piece.length]
        omega
      simp only [rleStep, hget₁, hc, if_neg hp.1, hcount, hend]
    · simp [storesAt, Piece.length]
  | run n =>
    obtain ⟨hpos, hle⟩ := hp
    have hw' : s.cx = w := by
      have hlt := hrun n rfl
      omega
    obtain ⟨dh₂, input₂, hget₂, hat₂⟩ := hat₁.getnybble
    simp only [Piece.spell] at hspell
    rw [← hw']
    split_ifs at hspell with hshort
    · simp only [holds_cons] at hspell
      obtain ⟨hfirst, hn, -⟩ := hspell
      have hcount : (UInt8.ofNat n).toNat = n := 
        UInt8.toNat_ofNat_of_lt' (hshort.trans (by decide))
      have hne : UInt8.ofNat n ≠ 0 := fun hz => by
        rw [hz] at hcount
        exact hpos.ne hcount
      have hstep : rleStep s = dorun n { s with dh := dh₂, input := input₂ } := by
        simp only [rleStep, hget₁, hfirst, if_true, hget₂, hn, if_neg hne, hcount]
      simp only [Piece.spell, if_pos hshort]
      exact rleStep_run hstep hat₂
    · simp only [holds_cons] at hspell
      obtain ⟨hfirst, hzero, hlo, hhi, -⟩ := hspell
      obtain ⟨dh₃, input₃, hget₃, hat₃⟩ := hat₂.getnybble
      obtain ⟨dh₄, input₄, hget₄, hat₄⟩ := hat₃.getnybble
      have hcount : (n - 16) % 16 + 16 * ((n - 16) / 16) + 16 = n := by omega
      have hstep : rleStep s = dorun n { s with dh := dh₄, input := input₄ } := by
        simp only [rleStep, hget₁, hfirst, if_true, hget₂, hzero, hget₃, hlo, hget₄, hhi]
        rw [long_run (by omega) (by omega), hcount]
      simp only [Piece.spell, if_neg hshort]
      exact rleStep_run hstep hat₄

/-! ## Rows -/

variable {p : Piece} {row : List Piece} {w k : Nat}

theorem Piece.Valid.pos (h : p.Valid last) : 0 < p.length := by
  cases p with
  | pixel => exact Nat.one_pos
  | run => exact h.1

theorem pixels_cons (p : Piece) (row : List Piece) : pixels (p :: row) = p.length + pixels row :=
  rfl

/-- A piece in front of a row. -/
theorem covers_cons (hne : row ≠ []) :
    Covers w (p :: row) ↔ p.length < w ∧ Covers (w - p.length) row := by
  simp only [Covers, List.dropLast_cons_of_ne_nil hne, pixels_cons]
  omega

/-- A row of one piece. -/
theorem covers_singleton : Covers w [p] ↔ 0 < w ∧ w ≤ p.length := by
  simp [Covers, pixels]

theorem rowAt_cons : RowAt file k last (p :: row) ↔
    (p.Valid last ∧ Holds (nybbles file) k (p.spell last)) ∧
      RowAt file (k + (p.spell last).length) (p.color last) row := by
  simp only [RowAt, ValidRow, spellRow, holds_append]
  tauto

/-- A row has a pixel for each of its pieces at least. -/
theorem Covers.length_le (h : Covers w row) (hvalid : ValidRow last row) : row.length ≤ w := by
  induction row generalizing last w with
  | nil => exact Nat.zero_le _
  | cons p row ih =>
    have hpos := hvalid.1.pos
    by_cases hnil : row = []
    · rw [hnil, covers_singleton] at h
      rw [hnil, List.length_singleton]
      omega
    · obtain ⟨hlt, hrest⟩ := (covers_cons hnil).mp h
      have hle := ih hrest hvalid.2
      rw [List.length_cons]
      omega

/-- From each nybble on there is a row. -/
theorem exists_row (file : List UInt8) (k : Nat) (last : UInt8) (hw : 0 < w) :
    ∃ row, RowAt file k last row ∧ Covers w row := by
  induction w using Nat.strong_induction_on generalizing k last with
  | _ w ih =>
    obtain ⟨p, hp⟩ := exists_piece file k last
    by_cases hlt : p.length < w
    · have hpos := hp.1.pos
      obtain ⟨row, hrow, hcover⟩ := ih (w - p.length) (by omega)
        (k + (p.spell last).length) (p.color last) (by omega)
      have hne : row ≠ [] := by
        rintro rfl
        have hzero := hcover.2
        simp only [pixels, List.map_nil, List.sum_nil] at hzero
        omega
      exact ⟨p :: row, rowAt_cons.mpr ⟨hp, hrow⟩, (covers_cons hne).mpr ⟨hlt, hcover⟩⟩
    · exact ⟨[p], rowAt_cons.mpr ⟨hp, trivial, holds_nil _ _⟩, covers_singleton.mpr ⟨hw, by omega⟩⟩

/-- The loop takes a row piece by piece. -/
theorem row_run (hat : At file k s.dh s.input) (hrow : RowAt file k s.dl row) (hcover : Covers w row)
    (hcx : s.cx = w % 0x10000)
    (hfull : w < 0x10000 ∨ w = 0x10000 ∧ ∃ c rest, row = .pixel c :: rest) :
    ∃ t, runLoop rleStep row.length s = some t ∧
      t.input = file.drop ((k + (spellRow s.dl row).length + 1) / 2) ∧
      t.stores.map Prod.fst = s.stores.map Prod.fst ++ List.range' s.di (pixels row) := by
  induction row generalizing s k w with
  | nil => exact absurd hcover.1 (Nat.not_lt.mpr hcover.2)
  | cons p row ih =>
    obtain ⟨⟨hp, hspell⟩, hrest⟩ := rowAt_cons.mp hrow
    have hw : 0 < w := Nat.zero_lt_of_lt hcover.1
    obtain ⟨u, hu, hdi, hdl, hatu, hucx, hstores⟩ := rleStep_piece hat hp hspell hcx
      (fun _ _ => ⟨hw, by omega⟩) (fun n hn => by
        rcases hfull with hlt | ⟨-, c, _, heq⟩
        · exact hlt
        · rw [(List.cons.inj heq).1] at hn
          cases hn)
    by_cases hnil : row = []
    · subst hnil
      rw [if_neg (by rw [covers_singleton] at hcover; omega)] at hu
      refine ⟨u, runLoop_stop hu, ?_, by simpa [pixels] using hstores⟩
      rw [hatu.input_eq, spellRow, spellRow, List.append_nil]
    · obtain ⟨hlt, hcover⟩ := (covers_cons hnil).mp hcover
      have hpos := hp.pos
      rw [if_pos hlt] at hu
      rw [← hdl] at hrest
      obtain ⟨t, hrun, hinput, hst⟩ := ih hatu hrest hcover (by rw [hucx hlt]; omega)
        (Or.inl (by omega))
      refine ⟨t, runLoop_next hu hrun, ?_, ?_⟩
      · rw [hinput, spellRow, List.length_append, hdl, Nat.add_assoc k]
      · rw [hst, hstores, hdi, List.append_assoc, List.range'_append_1, pixels_cons]

/-- A file begins with a row of a width. -/
def BeginsWith (input : List UInt8) (width : Nat) (row : List Piece) : Prop :=
  RowAt input 0 0 row ∧ FullRow width row

/-- Every file begins with a row of each width. -/
theorem exists_beginsWith (input : List UInt8) (width : Nat) : ∃ row, BeginsWith input width row := by
  by_cases hzero : width = 0
  · obtain ⟨row, hrow, hcover⟩ := @exists_row 0x10000 input 0 0 (by decide)
    cases row with
    | nil => exact absurd hcover.1 (Nat.not_lt.mpr hcover.2)
    | cons p rest =>
      cases p with
      | pixel c =>
        refine ⟨_, hrow, ?_⟩
        rw [FullRow, if_pos hzero]
        exact Or.inr ⟨⟨c, rest, rfl⟩, hcover⟩
      | run n =>
        obtain ⟨hp, -⟩ := rowAt_cons.mp hrow
        exact ⟨[.run n], rowAt_cons.mpr ⟨hp, trivial, holds_nil _ _⟩,
          by rw [FullRow, if_pos hzero]; exact Or.inl ⟨n, rfl⟩⟩
  · obtain ⟨row, hrow, hcover⟩ := @exists_row width input 0 0 (Nat.pos_of_ne_zero hzero)
    exact ⟨row, hrow, by rwa [FullRow, if_neg hzero]⟩

/-- `rledecode` makes the row that the file begins with, and reads its nybbles, with the other half
of the last byte. -/
theorem rledecode_row {input : List UInt8} {width : Nat} (hwidth : width < 0x10000)
    (h : BeginsWith input width row) : ∃ t, rledecode width input = some t ∧
      t.input = input.drop (((spellRow 0 row).length + 1) / 2) ∧
      t.stores.map Prod.fst = List.range (pixels row) := by
  obtain ⟨hrow, hfull⟩ := h
  let s : Row := { cx := width, di := 0, dl := 0, dh := 0, input, stores := [] }
  have hat : At input 0 s.dh s.input := At.start input
  have hcovers : ∀ w, Covers w row → width = w % 0x10000 → w ≤ 0x10000 →
      (w < 0x10000 ∨ w = 0x10000 ∧ ∃ c rest, row = .pixel c :: rest) →
      ∃ t, rledecode width input = some t ∧
        t.input = input.drop (((spellRow 0 row).length + 1) / 2) ∧
        t.stores.map Prod.fst = List.range (pixels row) := by
    intro w hcover hcx hle hbegin
    obtain ⟨t, hrun, hinput, hstores⟩ := row_run hat hrow hcover hcx hbegin
    obtain ⟨d, hd⟩ := Nat.exists_eq_add_of_le ((hcover.length_le hrow.1).trans hle)
    have hmore := runLoop_add hrun d
    rw [← hd] at hmore
    rw [Nat.zero_add] at hinput
    exact ⟨t, hmore, hinput, by rw [hstores, List.range_eq_range']; rfl⟩
  rw [FullRow] at hfull
  split_ifs at hfull with hzero
  · rcases hfull with ⟨n, rfl⟩ | ⟨hpixel, hcover⟩
    · obtain ⟨⟨hp, hspell⟩, -⟩ := rowAt_cons.mp hrow
      obtain ⟨u, hu, -, -, hatu, -, hstores⟩ := @rleStep_piece input 0 s (.run n) 0 hat hp hspell
        hzero nofun (fun _ _ => by decide)
      refine ⟨u, runLoop_add (runLoop_stop hu) 0xffff, ?_, ?_⟩
      · rw [hatu.input_eq, spellRow, spellRow, List.append_nil, Nat.zero_add]
      · rw [hstores, List.range_eq_range']
        rfl
    · exact hcovers 0x10000 hcover hzero le_rfl (Or.inr ⟨rfl, hpixel⟩)
  · exact hcovers width hfull (Nat.mod_eq_of_lt hwidth).symm hwidth.le (Or.inl hwidth)

/-- The decoding of a row stays in the buffer if and only if the row fits into it. -/
theorem rowStays_iff {input : List UInt8} {width : Nat} (hwidth : width < 0x10000)
    (h : BeginsWith input width row) : RowStays width input ↔ pixels row ≤ vgaRowBuffer := by
  obtain ⟨t, hrun, -, hstores⟩ := rledecode_row hwidth h
  have hmem : ∀ a, (∃ x ∈ t.stores, x.1 = a) ↔ a < pixels row := fun a => by
    rw [← List.mem_map, hstores, List.mem_range]
  constructor
  · rintro ⟨t', hrun', hin⟩
    cases hrun.symm.trans hrun'
    by_contra hlong
    obtain ⟨x, hx, hxa⟩ := (hmem vgaRowBuffer).mpr (Nat.not_le.mp hlong)
    exact (hin x hx).ne hxa
  · intro hle
    exact ⟨t, hrun, fun x hx => ((hmem x.1).mp ⟨x, hx, rfl⟩).trans_le hle⟩

/-- All rows of a file fit. Each begins at the byte behind the row in front of it. -/
def RowsFit (width : Nat) : Nat → List UInt8 → Prop
  | 0, _ => True
  | rows + 1, input => ∃ row, BeginsWith input width row ∧ pixels row ≤ vgaRowBuffer ∧
      RowsFit width rows (input.drop (((spellRow 0 row).length + 1) / 2))

/-- All rows of a file with a good header fit. A height of zero counts as 65536. -/
def FileFits (file : List UInt8) : Prop :=
  ∀ hdr, lssHeader file = some hdr →
    RowsFit hdr.graphXSize (if hdr.graphYSize = 0 then 0x10000 else hdr.graphYSize) hdr.input

/-! ## The result -/

/-- The drawing loop goes from a row to the next one, which begins where the reader stops. -/
theorem drawStep_row {width rows : Nat} {input : List UInt8} (hwidth : width < 0x10000)
    (hle : rows < 0x10000) (h : BeginsWith input width row) :
    drawStep width ⟨(rows + 1) % 0x10000, input⟩ =
      if rows ≠ 0 then .next ⟨rows % 0x10000, input.drop (((spellRow 0 row).length + 1) / 2)⟩
      else .stop () := by
  obtain ⟨t, hrun, hinput, -⟩ := rledecode_row hwidth h
  have hcount : ((rows + 1) % 0x10000 + 0xffff) % 0x10000 = rows := by omega
  simp only [drawStep, hrun, hcount, hinput, Nat.mod_eq_of_lt hle]

/-- From a row on, the rows stay in the buffer if and only if they fit. -/
theorem rows_iff {width : Nat} (hwidth : width < 0x10000) {rows : Nat} {input : List UInt8}
    (hpos : 0 < rows) (hle : rows ≤ 0x10000) :
    (∀ s, Reaches (drawStep width) ⟨rows % 0x10000, input⟩ s → RowStays width s.input) ↔
      RowsFit width rows input := by
  induction rows generalizing input with
  | zero => exact absurd hpos (Nat.lt_irrefl 0)
  | succ rows ih =>
    have hrow : ∀ row, BeginsWith input width row →
        ((∀ s, Reaches (drawStep width) ⟨(rows + 1) % 0x10000, input⟩ s → RowStays width s.input) ↔
          pixels row ≤ vgaRowBuffer ∧
            RowsFit width rows (input.drop (((spellRow 0 row).length + 1) / 2))) := by
      intro row hbegin
      have hstep := drawStep_row hwidth hle hbegin
      rw [← rowStays_iff hwidth hbegin]
      by_cases hlast : rows = 0
      · rw [if_neg (not_not.mpr hlast)] at hstep
        rw [hlast] at hstep ⊢
        refine ⟨fun h => ⟨h _ .start, trivial⟩, fun h s hs => ?_⟩
        rcases hs.cases_head with rfl | ⟨u, hu, -⟩
        · exact h.1
        · rw [hstep] at hu
          cases hu
      · rw [if_pos hlast] at hstep
        rw [← ih (Nat.pos_of_ne_zero hlast) (Nat.le_of_succ_le hle)]
        refine ⟨fun h => ⟨h _ .start, fun s hs => h s ((Reaches.start.next hstep).trans hs)⟩,
          fun h s hs => ?_⟩
        rcases hs.cases_head with rfl | ⟨u, hu, hreach⟩
        · exact h.1
        · rw [hstep] at hu
          cases hu
          exact h.2 s hreach
    constructor
    · intro h
      obtain ⟨row, hbegin⟩ := exists_beginsWith input width
      obtain ⟨hfit, hrest⟩ := (hrow row hbegin).mp h
      exact ⟨row, hbegin, hfit, hrest⟩
    · rintro ⟨row, hbegin, hfit, hrest⟩
      exact (hrow row hbegin).mpr ⟨hfit, hrest⟩

/-- A header has 16-bit numbers. -/
theorem lssHeader_lt {file : List UInt8} {hdr : LssHeader} (h : lssHeader file = some hdr) :
    hdr.graphXSize < 0x10000 ∧ hdr.graphYSize < 0x10000 := by
  simp only [lssHeader] at h
  split_ifs at h
  cases h
  exact ⟨readLe_lt _ 4 2, readLe_lt _ 6 2⟩

/-- The decoding of each row of a file ends inside the row buffer if and only if each row, up to the
piece that reaches the width, has no more pixels than the buffer has bytes. -/
theorem file_stays_iff (file : List UInt8) : FileStays file ↔ FileFits file := by
  refine forall_congr' fun hdr => forall_congr' fun hhdr => ?_
  obtain ⟨hwidth, hheight⟩ := lssHeader_lt hhdr
  split_ifs with hzero
  · rw [hzero]
    exact rows_iff hwidth (by decide) le_rfl
  · have hmod := Nat.mod_eq_of_lt hheight
    have hrows := @rows_iff hdr.graphXSize hwidth hdr.graphYSize hdr.input
      (Nat.pos_of_ne_zero hzero) hheight.le
    rwa [hmod] at hrows

/-- A file with one row of the width of the screen: three runs of 271 pixels. -/
def longRuns : List UInt8 :=
  [0x3d, 0xf3, 0x13, 0x14, 0x80, 0x02, 0x01, 0x00] ++ List.replicate 48 0 ++
    [0x00, 0xff, 0x00, 0xff, 0x00, 0xff]

theorem not_file_stays : ¬ ∀ file, FileStays file := by
  intro hall
  have hhdr : lssHeader longRuns = some ⟨640, 1, [0x00, 0xff, 0x00, 0xff, 0x00, 0xff]⟩ := rfl
  have hrow : BeginsWith [0x00, 0xff, 0x00, 0xff, 0x00, 0xff] 640
      [.run 271, .run 271, .run 271] := by
    refine ⟨⟨by simp [ValidRow, Piece.Valid], ?_⟩, by simp [FullRow, Covers, pixels, Piece.length]⟩
    have hbyte : (0xff : UInt8) &&& 0x0f = 15 ∧ (0xff : UInt8) >>> 4 = 15 := by decide
    simp [spellRow, Piece.spell, Piece.color, holds_cons, holds_nil, nybbles, hbyte]
  have hstays := hall _ _ hhdr _ .start
  rw [rowStays_iff (by decide) hrow] at hstays
  exact absurd hstays (by decide)

end Liigboot.Console
