import Liigboot.Lib.Bytes

/-!
# Pieces stored apart from each other

Pieces are stored into a buffer one after the other, each at an offset of its own. When they lie
apart from each other the order does not matter: a byte under a piece is that piece's, and every
other byte is the buffer's own.
-/

namespace Liigboot

variable {α : Type*}

/-- Store pieces at their offsets, in order. -/
def splices (xs : List α) (ps : List (Nat × List α)) : List α :=
  ps.foldl (fun xs p => blit xs p.1 p.2) xs

@[simp] theorem splices_nil (xs : List α) : splices xs [] = xs := rfl

@[simp] theorem splices_cons (xs : List α) (p : Nat × List α) (ps : List (Nat × List α)) :
    splices xs (p :: ps) = splices (blit xs p.1 p.2) ps := rfl

/-- A piece lies over an index. -/
def OverPiece (p : Nat × List α) (i : Nat) : Prop := p.1 ≤ i ∧ i < p.1 + p.2.length

/-- All pieces lie inside a buffer of some length. -/
def PiecesIn (n : Nat) (ps : List (Nat × List α)) : Prop := ∀ p ∈ ps, p.1 + p.2.length ≤ n

theorem length_splices {xs : List α} {ps : List (Nat × List α)} (h : PiecesIn xs.length ps) :
    (splices xs ps).length = xs.length := by
  induction ps generalizing xs with
  | nil => rfl
  | cons p ps ih =>
    have hlen := length_blit (h p List.mem_cons_self)
    rw [splices_cons, ih (fun q hq => hlen ▸ h q (List.mem_cons_of_mem p hq)), hlen]

/-- Under no piece the buffer keeps its own bytes. -/
theorem getElem?_splices_of_not_over {xs : List α} {ps : List (Nat × List α)} {i : Nat}
    (h : PiecesIn xs.length ps) (hi : ∀ p ∈ ps, ¬ OverPiece p i) :
    (splices xs ps)[i]? = xs[i]? := by
  induction ps generalizing xs with
  | nil => rfl
  | cons p ps ih =>
    have hin := h p List.mem_cons_self
    have hout := hi p List.mem_cons_self
    have hlen := length_blit hin
    rw [splices_cons, ih (fun q hq => hlen ▸ h q (List.mem_cons_of_mem p hq)) fun q hq =>
      hi q (List.mem_cons_of_mem p hq), getElem?_blit (by omega)]
    by_cases hlo : i < p.1
    · rw [if_pos hlo]
    · rw [if_neg hlo, if_neg fun hhi => hout ⟨Nat.le_of_not_lt hlo, hhi⟩]

/-- Under a piece that no other one meets, the buffer has the bytes of that piece. -/
theorem getElem?_splices_of_over {xs : List α} {ps : List (Nat × List α)} {i : Nat}
    (h : PiecesIn xs.length ps)
    (hapart : ps.Pairwise fun p q => ∀ i, ¬ (OverPiece p i ∧ OverPiece q i))
    {p : Nat × List α} (hp : p ∈ ps) (hi : OverPiece p i) :
    (splices xs ps)[i]? = p.2[i - p.1]? := by
  induction ps generalizing xs with
  | nil => cases hp
  | cons q ps ih =>
    obtain ⟨hq, hrest⟩ := List.pairwise_cons.mp hapart
    have hin := h q List.mem_cons_self
    have hlen := length_blit hin
    have hinside : PiecesIn (blit xs q.1 q.2).length ps := fun r hr =>
      hlen ▸ h r (List.mem_cons_of_mem q hr)
    rw [splices_cons]
    rcases List.mem_cons.mp hp with rfl | hp
    · rw [getElem?_splices_of_not_over hinside fun r hr hover => hq r hr i ⟨hi, hover⟩,
        getElem?_blit_of_mem (by omega) hi.1 hi.2]
    · exact ih hinside hrest hp

end Liigboot
