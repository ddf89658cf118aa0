import Liigboot.Lib.Loop
import Mathlib.Data.Fintype.Card
import Mathlib.Data.Set.Finite.Basic
import Mathlib.Logic.Relation
import Mathlib.Order.RelClasses

/-!
# Loops inside loops

An iteration of a loop may run other loops, for as many iterations as it is given. Among finitely
many states such a loop ends if and only if its iterations do, and none of the states that it comes
to leads back to itself.
-/

namespace Liigboot

open Relation

variable {S R : Type*}

/-- An iteration that does not hang does the same when the loops inside it get more iterations. -/
def Steady (step : Nat → S → Step S R) : Prop :=
  ∀ ⦃m n s⦄, m ≤ n → step m s ≠ .hang → step n s = step m s

/-- An iteration goes on with another state. -/
def Goes (step : Nat → S → Step S R) (s t : S) : Prop := ∃ n, step n s = .next t

/-- No state that a loop comes to leads back to itself. -/
def NoReturn (step : Nat → S → Step S R) (s : S) : Prop :=
  ∀ t, ReflTransGen (Goes step) s t → ¬TransGen (Goes step) t t

/-- No state that a loop comes to hangs or leads back to itself. -/
def Passes (step : Nat → S → Step S R) (s : S) : Prop :=
  ∀ t, ReflTransGen (Goes step) s t → (∃ n, step n t ≠ .hang) ∧ ¬TransGen (Goes step) t t

variable {step : Nat → S → Step S R} {s t u : S} {m n k : Nat} {result result' : R}

theorem steady_const (step : S → Step S R) : Steady fun _ => step := fun _ _ _ _ _ => rfl

theorem passes_iff : Passes step s ↔
    (∀ t, ReflTransGen (Goes step) s t → ∃ n, step n t ≠ .hang) ∧ NoReturn step s := by
  constructor
  · intro h
    exact ⟨fun t ht => (h t ht).1, fun t ht => (h t ht).2⟩
  · rintro ⟨hne, hgo⟩ t ht
    exact ⟨hne t ht, hgo t ht⟩

/-- A loop stays in a set that its iterations do not leave. -/
theorem reached_mem {T : Set S} (hs : s ∈ T)
    (h : ∀ n t u, t ∈ T → step n t = .next u → u ∈ T) (ht : ReflTransGen (Goes step) s t) :
    t ∈ T := by
  induction ht with
  | refl => exact hs
  | tail _ hgo ih =>
    obtain ⟨n, hn⟩ := hgo
    exact h n _ _ ih hn

namespace Steady

variable (h : Steady step)

include h

/-- Two iterations from one state that do not hang do the same. -/
theorem eq_of_ne_hang (hm : step m s ≠ .hang) (hn : step n s ≠ .hang) : step m s = step n s := by
  rw [← h (Nat.le_max_left m n) hm, ← h (Nat.le_max_right m n) hn]

theorem goes_unique (ht : Goes step s t) (hu : Goes step s u) : t = u := by
  obtain ⟨m, hm⟩ := ht
  obtain ⟨n, hn⟩ := hu
  have heq := h.eq_of_ne_hang (by rw [hm]; exact nofun) (by rw [hn]; exact nofun : step n s ≠ .hang)
  rw [hm, hn] at heq
  exact Step.next.inj heq

theorem not_goes_of_stop (hstop : step m s = .stop result) : ¬Goes step s t := by
  rintro ⟨n, hn⟩
  have heq := h.eq_of_ne_hang (by rw [hstop]; exact nofun)
    (by rw [hn]; exact nofun : step n s ≠ .hang)
  rw [hstop, hn] at heq
  cases heq

/-- More iterations, of the loop and of those inside it, do not change the result. -/
theorem runLoop_le (hrun : runLoop (step m) k s = some result) (hmn : m ≤ n) :
    runLoop (step n) k s = some result := by
  induction k generalizing s with
  | zero => cases hrun
  | succ k ih =>
    rw [runLoop] at hrun
    have hne : step m s ≠ .hang := by
      intro hhang
      rw [hhang] at hrun
      cases hrun
    rw [runLoop, h hmn hne]
    cases hstep : step m s with
    | stop result' =>
      rw [hstep] at hrun
      exact hrun
    | next u =>
      rw [hstep] at hrun
      exact ih hrun
    | hang => exact absurd hstep hne

theorem runLoop_self_le (hrun : runLoop (step m) m s = some result) (hmn : m ≤ n) :
    runLoop (step n) n s = some result := by
  have hmore := runLoop_add (h.runLoop_le hrun hmn) (n - m)
  rwa [Nat.add_sub_cancel' hmn] at hmore

/-- There is one result. -/
theorem runLoop_self_unique (hm : runLoop (step m) m s = some result)
    (hn : runLoop (step n) n s = some result') : result = result' := by
  have hm' := h.runLoop_self_le hm (Nat.le_max_left m n)
  have hn' := h.runLoop_self_le hn (Nat.le_max_right m n)
  rw [hm'] at hn'
  exact Option.some.inj hn'

/-- A loop that ends passes. -/
theorem passes_of_runLoop (hrun : runLoop (step m) k s = some result) : Passes step s := by
  induction k generalizing s with
  | zero => cases hrun
  | succ k ih =>
    rw [runLoop] at hrun
    cases hstep : step m s with
    | hang =>
      rw [hstep] at hrun
      cases hrun
    | stop result' =>
      have hends : ∀ t, ¬Goes step s t := fun t => h.not_goes_of_stop hstep
      intro t ht
      obtain rfl | ⟨u, hu, -⟩ := ReflTransGen.cases_head ht
      · refine ⟨⟨m, by rw [hstep]; exact Step.stop_ne_hang⟩, fun hcycle => ?_⟩
        obtain ⟨u, hu, -⟩ := TransGen.head'_iff.mp hcycle
        exact hends u hu
      · exact absurd hu (hends u)
    | next u =>
      rw [hstep] at hrun
      have hpass := ih hrun
      have hgo : Goes step s u := ⟨m, hstep⟩
      intro t ht
      obtain rfl | ⟨v, hv, hvt⟩ := ReflTransGen.cases_head ht
      · refine ⟨⟨m, by rw [hstep]; exact Step.next_ne_hang⟩, fun hcycle => ?_⟩
        -- the state behind the first one would lie on the cycle, too
        obtain ⟨v, hv, hvs⟩ := TransGen.head'_iff.mp hcycle
        obtain rfl := h.goes_unique hgo hv
        exact (hpass u .refl).2 (TransGen.tail' hvs hgo)
      · obtain rfl := h.goes_unique hgo hv
        exact hpass t hvt

/-- A loop does not end that comes to a state which does not change. -/
theorem runLoop_stuck (ht : ReflTransGen (Goes step) s t) (hgo : Goes step t t) (m k : Nat) :
    runLoop (step m) k s = none := by
  cases hrun : runLoop (step m) k s with
  | none => rfl
  | some result => exact absurd (.single hgo) (h.passes_of_runLoop hrun t ht).2

/-- A loop does not end that comes to a state which hangs. -/
theorem runLoop_hang (ht : ReflTransGen (Goes step) s t) (hhang : ∀ n, step n t = .hang)
    (m k : Nat) : runLoop (step m) k s = none := by
  cases hrun : runLoop (step m) k s with
  | none => rfl
  | some result =>
    obtain ⟨n, hn⟩ := (h.passes_of_runLoop hrun t ht).1
    exact absurd (hhang n) hn

/-- A loop ends in its first iteration. -/
theorem ends_of_stop (hstop : step m s = .stop result) :
    ∃ n, runLoop (step n) n s = some result := by
  refine ⟨m + 1, ?_⟩
  rw [runLoop, h (Nat.le_succ m) (by rw [hstop]; exact Step.stop_ne_hang), hstop]

/-- A loop ends behind its first iteration. -/
theorem ends_of_goes (hgo : Goes step s t) (hends : ∃ n, runLoop (step n) n t = some result) :
    ∃ n, runLoop (step n) n s = some result := by
  obtain ⟨m, hm⟩ := hgo
  obtain ⟨n, hrun⟩ := hends
  refine ⟨max m n + 1, ?_⟩
  have hrun' := h.runLoop_le (h.runLoop_self_le hrun (Nat.le_max_right m n))
    (Nat.le_succ (max m n))
  rw [runLoop, h ((Nat.le_max_left m n).trans (Nat.le_succ _))
      (by rw [hm]; exact Step.next_ne_hang), hm]
  exact hrun'

/-- A loop ends as it does from a state that it comes to. -/
theorem ends_of_reaches (ht : ReflTransGen (Goes step) s t)
    (hends : ∃ n, runLoop (step n) n t = some result) :
    ∃ n, runLoop (step n) n s = some result := by
  induction ht using ReflTransGen.head_induction_on with
  | refl => exact hends
  | head hgo _ ih => exact h.ends_of_goes hgo ih

/-- Among finitely many states a loop ends if and only if it passes. -/
theorem ends_iff (hfin : {t | ReflTransGen (Goes step) s t}.Finite) :
    (∃ n result, runLoop (step n) n s = some result) ↔ Passes step s := by
  refine ⟨fun ⟨n, result, hrun⟩ => h.passes_of_runLoop hrun, fun hpass => ?_⟩
  have : Finite {t // ReflTransGen (Goes step) s t} := hfin
  have htrans : IsTrans {t // ReflTransGen (Goes step) s t}
      fun t u => TransGen (Goes step) u.1 t.1 := ⟨fun _ _ _ htu huv => huv.trans htu⟩
  have hirrefl : Std.Irrefl fun t u : {t // ReflTransGen (Goes step) s t} =>
      TransGen (Goes step) u.1 t.1 := ⟨fun t => (hpass t.1 t.2).2⟩
  have hwf : WellFounded fun t u : {t // ReflTransGen (Goes step) s t} =>
      TransGen (Goes step) u.1 t.1 := Finite.wellFounded_of_trans_of_irrefl _
  have hall : ∀ t : {t // ReflTransGen (Goes step) s t},
      ∃ n result, runLoop (step n) n t.1 = some result := by
    intro t
    induction t using hwf.induction with
    | _ t ih =>
      obtain ⟨m, hm⟩ := (hpass t.1 t.2).1
      cases hstep : step m t.1 with
      | hang => exact absurd hstep hm
      | stop result =>
        obtain ⟨n, hrun⟩ := h.ends_of_stop hstep
        exact ⟨n, result, hrun⟩
      | next u =>
        have hgo : Goes step t.1 u := ⟨m, hstep⟩
        obtain ⟨k, result, hk⟩ := ih ⟨u, t.2.tail hgo⟩ (.single hgo)
        obtain ⟨n, hrun⟩ := h.ends_of_goes hgo ⟨k, hk⟩
        exact ⟨n, result, hrun⟩
  exact hall ⟨s, .refl⟩

end Steady

end Liigboot
