import Mathlib.Order.Nat
import Mathlib.Tactic.Common

/-!
# Loops

A loop as the step from one iteration to the next. An iteration ends the loop with a result, goes
on with another state, or hangs. A loop ends when all iterations that it gets to go on with a
smaller measure or end.
-/

namespace Liigboot

variable {S R : Type*}

/-- What an iteration does. -/
inductive Step (S R : Type*) where
  | stop (result : R)
  | next (state : S)
  | hang

theorem Step.stop_ne_hang {result : R} : (.stop result : Step S R) ≠ .hang := nofun

theorem Step.next_ne_hang {s : S} : (.next s : Step S R) ≠ .hang := nofun

/-- A number of iterations of a loop. -/
def runLoop (step : S → Step S R) : Nat → S → Option R
  | 0, _ => none
  | n + 1, s =>
    match step s with
    | .stop result => some result
    | .next s => runLoop step n s
    | .hang => none

attribute [local simp] runLoop

/-- The states in front of the iterations of a loop. -/
inductive Reaches (step : S → Step S R) (s : S) : S → Prop where
  | start : Reaches step s s
  | next {t u : S} : Reaches step s t → step t = .next u → Reaches step s u

variable {step : S → Step S R} {s t u : S}

theorem Reaches.trans (hst : Reaches step s t) (htu : Reaches step t u) : Reaches step s u := by
  induction htu with
  | start => exact hst
  | next _ hstep ih => exact ih.next hstep

/-- A loop is where it starts, or gets there from its second iteration. -/
theorem Reaches.cases_head (h : Reaches step s t) :
    s = t ∨ ∃ u, step s = .next u ∧ Reaches step u t := by
  induction h with
  | start => exact Or.inl rfl
  | next _ hstep ih =>
    rcases ih with rfl | ⟨u, hu, hreach⟩
    · exact Or.inr ⟨_, hstep, .start⟩
    · exact Or.inr ⟨u, hu, hreach.next hstep⟩

/-- An invariant holds in front of all iterations. -/
theorem Reaches.inv {inv : S → Prop} (h : Reaches step s t) (hs : inv s)
    (hstep : ∀ t u, inv t → step t = .next u → inv u) : inv t := by
  induction h with
  | start => exact hs
  | next _ hnext ih => exact hstep _ _ ih hnext

/-- More iterations do not change the result. -/
theorem runLoop_add {n : Nat} {result : R} (h : runLoop step n s = some result) (k : Nat) :
    runLoop step (n + k) s = some result := by
  induction n generalizing s with
  | zero => cases h
  | succ n ih =>
    rw [Nat.add_right_comm, runLoop]
    rw [runLoop] at h
    cases hstep : step s with
    | stop result' =>
      rw [hstep] at h
      exact h
    | next u =>
      rw [hstep] at h
      exact ih h
    | hang =>
      rw [hstep] at h
      cases h

/-- A loop has one result. -/
theorem runLoop_unique {m n : Nat} {result result' : R} (h : runLoop step m s = some result)
    (h' : runLoop step n s = some result') : result = result' := by
  have hm := runLoop_add h n
  have hn := runLoop_add h' m
  rw [Nat.add_comm, hn] at hm
  exact (Option.some.inj hm).symm

/-- An iteration in front of a loop. -/
theorem runLoop_next {n : Nat} {result : R} (h : step s = .next t)
    (hrun : runLoop step n t = some result) : runLoop step (n + 1) s = some result := by
  simp [h, hrun]

theorem runLoop_stop {result : R} (h : step s = .stop result) :
    runLoop step 1 s = some result := by
  simp [h]

/-- The result comes from an iteration that the loop gets to. -/
theorem runLoop_reaches {n : Nat} {result : R} (h : runLoop step n s = some result) :
    ∃ t, Reaches step s t ∧ step t = .stop result := by
  induction n generalizing s with
  | zero => cases h
  | succ n ih =>
    cases hstep : step s with
    | stop result' =>
      simp only [runLoop, hstep, Option.some.injEq] at h
      exact ⟨s, .start, hstep.trans (congrArg Step.stop h)⟩
    | next u =>
      simp only [runLoop, hstep] at h
      obtain ⟨t, hreach, hstop⟩ := ih h
      exact ⟨t, (Reaches.start.next hstep).trans hreach, hstop⟩
    | hang => simp [hstep] at h

/-- A loop whose iteration changes nothing does not end. -/
theorem runLoop_stuck (h : step s = .next s) (n : Nat) : runLoop step n s = none := by
  induction n with
  | zero => rfl
  | succ n ih => simp [h, ih]

/-- A loop ends when each iteration does, or goes on with a smaller measure. -/
theorem runLoop_ends (measure : S → Nat)
    (h : ∀ t, Reaches step s t →
      step t ≠ .hang ∧ ∀ u, step t = .next u → measure u < measure t) :
    ∃ n result, runLoop step n s = some result := by
  generalize hm : measure s = m
  induction m using Nat.strong_induction_on generalizing s with
  | _ m ih =>
    obtain ⟨hhang, hless⟩ := h s .start
    cases hstep : step s with
    | stop result => exact ⟨1, result, runLoop_stop hstep⟩
    | next u =>
      have hreach : Reaches step s u := Reaches.start.next hstep
      obtain ⟨n, result, hrun⟩ := ih (measure u) (hm ▸ hless u hstep)
        (fun t ht => h t (hreach.trans ht)) rfl
      exact ⟨n + 1, result, by rw [runLoop, hstep]; exact hrun⟩
    | hang => exact absurd hstep hhang

end Liigboot
