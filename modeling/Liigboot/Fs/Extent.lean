import Mathlib.Algebra.Group.Nat.Defs
import Mathlib.Data.List.Basic
import Mathlib.Order.Nat
import Mathlib.Tactic.Common

/-!
# Extents

An extent is a run of sectors of a file that is contiguous on disk, or a run of
zeros that is nowhere on disk. What it says about the file is its relation to a
map from logical sectors to physical ones; advancing into an extent, cutting it
and joining it with its physical successor keep that relation.
-/

namespace Liigboot.Fs

/-- A number cut to `uint32_t`. -/
def u32 (n : Nat) : Nat := n % 2 ^ 32

/-- A number cut to `sector_t`. -/
def u64 (n : Nat) : Nat := n % 2 ^ 64

theorem u32_of_lt {n : Nat} (h : n < 2 ^ 32) : u32 n = n := Nat.mod_eq_of_lt h
theorem u64_of_lt {n : Nat} (h : n < 2 ^ 64) : u64 n = n := Nat.mod_eq_of_lt h

/-- `EXTENT_ZERO`, the start of an all-zero extent. -/
def extentZero : Nat := 2 ^ 64 - 1

/-- `EXTENT_VOID`, the first special sector number. -/
def extentVoid : Nat := 2 ^ 64 - 2

/-- `struct extent`. -/
structure Extent where
  /-- Physical start sector. -/
  pstart : Nat
  /-- Logical start sector. -/
  lstart : Nat
  /-- Number of contiguous sectors. -/
  len : Nat
  deriving DecidableEq, Repr

/-- `next_psector`. -/
def nextPsector (psector skip : Nat) : Nat :=
  if psector ≥ extentVoid then psector else u64 (psector + skip)

/-- `next_pstart`. -/
def nextPstart (e : Extent) : Nat := nextPsector e.pstart e.len

/-- Where each sector of a file lies on disk, nowhere for a sector of zeros. -/
abbrev SectorMap := Nat → Option Nat

/-- The place of the `j`-th sector of an extent. -/
def Extent.phys (e : Extent) (j : Nat) : Option Nat :=
  if e.pstart = extentZero then none else some (e.pstart + j)

/-- The extent agrees with the map of a file. Its logical end is a sector number, and its
physical sectors are ordinary ones. -/
structure Extent.Maps (map : SectorMap) (e : Extent) : Prop where
  end_lt : e.lstart + e.len < 2 ^ 32
  ordinary : 0 < e.len → e.pstart = extentZero ∨ e.pstart + e.len ≤ extentVoid
  phys_eq : ∀ j < e.len, map (e.lstart + j) = e.phys j

/-- An empty extent says nothing. -/
theorem Extent.Maps.empty {map : SectorMap} {e : Extent} (h : e.lstart < 2 ^ 32) (h0 : e.len = 0) :
    e.Maps map :=
  ⟨by omega, fun hpos => by omega, fun j hj => by omega⟩

/-- Inside an ordinary extent the special values are out of reach. -/
theorem nextPsector_eq {e : Extent} (h : e.pstart = extentZero ∨ e.pstart + e.len ≤ extentVoid)
    (h0 : 0 < e.len) {d : Nat} (hd : d ≤ e.len) :
    nextPsector e.pstart d = if e.pstart = extentZero then extentZero else e.pstart + d := by
  rcases h with hz | hle
  · rw [nextPsector, hz, if_pos (by decide), if_pos rfl]
  · have hlt : ¬ e.pstart ≥ extentVoid := by omega
    have hne : e.pstart ≠ extentZero := by
      simp only [extentZero, extentVoid] at *
      omega
    rw [nextPsector, if_neg hlt, if_neg hne, u64_of_lt]
    simp only [extentVoid] at hle
    omega

/-- The rest of an extent behind its first `d` sectors. -/
theorem Extent.Maps.advance {map : SectorMap} {e : Extent} (h : e.Maps map) {d : Nat}
    (hd : d ≤ e.len) :
    Extent.Maps map ⟨nextPsector e.pstart d, e.lstart + d, e.len - d⟩ := by
  have hend := h.end_lt
  refine ⟨by simp only; omega, fun hpos => ?_, fun j hj => ?_⟩
  · have h0 : 0 < e.len := by
      simp only at hpos
      omega
    simp only [nextPsector_eq (h.ordinary h0) h0 hd]
    rcases h.ordinary h0 with hz | hle
    · exact Or.inl (if_pos hz)
    · split
      · exact Or.inl rfl
      · right
        omega
  · have hj' : j < e.len - d := hj
    have h0 : 0 < e.len := by omega
    have hphys := h.phys_eq (d + j) (by omega)
    simp only [Nat.add_assoc, hphys, Extent.phys, nextPsector_eq (h.ordinary h0) h0 hd]
    rcases h.ordinary h0 with hz | hle
    · simp only [hz, if_true]
    · have hne : e.pstart ≠ extentZero := by
        simp only [extentZero, extentVoid] at *
        omega
      have hne' : e.pstart + d ≠ extentZero := by
        simp only [extentZero, extentVoid] at *
        omega
      simp only [hne, hne', if_false, Nat.add_assoc]

/-- An extent and its successor, when that starts where the first one ends on disk. -/
theorem Extent.Maps.coalesce {map : SectorMap} {e f : Extent} (he : e.Maps map) (hf : f.Maps map)
    (he0 : 0 < e.len) (hf0 : 0 < f.len) (hl : f.lstart = e.lstart + e.len)
    (hp : f.pstart = nextPstart e) :
    Extent.Maps map ⟨e.pstart, e.lstart, e.len + f.len⟩ := by
  have hend := hf.end_lt
  rw [nextPstart, nextPsector_eq (he.ordinary he0) he0 le_rfl] at hp
  have hord : e.pstart = extentZero ∨ e.pstart + (e.len + f.len) ≤ extentVoid := by
    by_cases hz : e.pstart = extentZero
    · exact Or.inl hz
    · rw [if_neg hz] at hp
      rcases he.ordinary he0 with h | h
      · exact absurd h hz
      · rcases hf.ordinary hf0 with h' | h' <;> right <;>
          simp only [extentZero, extentVoid] at * <;> omega
  refine ⟨by simp only; omega, fun _ => hord, fun j hj => ?_⟩
  by_cases hlt : j < e.len
  · exact he.phys_eq j hlt
  · have hphys := hf.phys_eq (j - e.len) (by simp only at hj; omega)
    rw [hl, Nat.add_assoc, Nat.add_sub_cancel' (Nat.le_of_not_lt hlt)] at hphys
    simp only [hphys, Extent.phys, hp]
    by_cases hz : e.pstart = extentZero
    · simp only [hz, if_true]
    · have hne : e.pstart + e.len ≠ extentZero := by
        rcases hord with h | h
        · exact absurd h hz
        · simp only [extentZero, extentVoid] at *
          omega
      simp only [hz, hne, if_false, Option.some.injEq]
      omega

end Liigboot.Fs
