import Liigboot.Lib.Program
import Mathlib.Data.List.Monad

/-!
# Programs under a monitor

A monitor reads the log of a program, event by event, and may refuse one. What a program does under
a monitor is proved over the tree of its operations: each event is accepted, and the result is as it
should be. Where a program that is given up counts as wrong, this proves that the program ends.
-/

namespace Liigboot.Program

variable {Op : Type} {Ret : Op → Type} {α β S σ M : Type} {exec : (o : Op) → σ → Ret o × σ}
  {watch : M → Event Ret σ → Option M} {mayStop : Prop} {P Q : α → M → σ → Prop} {m : M} {s : σ}

/-- The monitor accepts all events, and the result, what the monitor is then, and the last state are
as they should be. -/
def Obeys (exec : (o : Op) → σ → Ret o × σ) (watch : M → Event Ret σ → Option M) (mayStop : Prop)
    (Q : α → M → σ → Prop) : Program Ret α → M → σ → Prop
  | .ret a, m, s => Q a m s
  | .stop, _, _ => mayStop
  | .op o next, m, s =>
    ∃ m', watch m (eventOf exec o s) = some m' ∧
      (next (exec o s).1).Obeys exec watch mayStop Q m' (exec o s).2

theorem Obeys.mono {p : Program Ret α} (h : p.Obeys exec watch mayStop P m s)
    (hPQ : ∀ a m s, P a m s → Q a m s) : p.Obeys exec watch mayStop Q m s := by
  induction p generalizing m s with
  | ret a => exact hPQ a m s h
  | stop => exact h
  | op o next ih =>
    obtain ⟨m', hwatch, hnext⟩ := h
    exact ⟨m', hwatch, ih _ hnext⟩

@[simp] theorem obeys_bind {p : Program Ret β} {f : β → Program Ret α} :
    (p.bind f).Obeys exec watch mayStop Q m s ↔
      p.Obeys exec watch mayStop (fun b m s => (f b).Obeys exec watch mayStop Q m s) m s := by
  induction p generalizing m s with
  | ret a => exact Iff.rfl
  | stop => exact Iff.rfl
  | op o next ih => simp only [bind, Obeys, ih]

/-- A sequence is proved in its order. -/
theorem Obeys.bind {R : β → M → σ → Prop} {p : Program Ret β} {f : β → Program Ret α}
    (hp : p.Obeys exec watch mayStop R m s)
    (hf : ∀ b m s, R b m s → (f b).Obeys exec watch mayStop Q m s) :
    (p.bind f).Obeys exec watch mayStop Q m s :=
  obeys_bind.mpr (hp.mono hf)

/-- An operation that the monitor accepts. -/
theorem obeys_op {o : Op} {next : Ret o → Program Ret α} {m' : M}
    (hwatch : watch m (eventOf exec o s) = some m')
    (h : (next (exec o s).1).Obeys exec watch mayStop Q m' (exec o s).2) :
    (Program.op o next).Obeys exec watch mayStop Q m s :=
  ⟨m', hwatch, h⟩

/-- A loop that may be given up keeps what all its rounds keep. -/
theorem obeys_loop {round : S → Program Ret (S ⊕ α)} (inv : S → M → σ → Prop) (hstop : mayStop)
    (hround : ∀ x m s, inv x m s →
      (round x).Obeys exec watch mayStop (fun r m s => r.elim (inv · m s) (Q · m s)) m s)
    (n : Nat) {x : S} (h : inv x m s) : (loop round n x).Obeys exec watch mayStop Q m s := by
  induction n generalizing x m s with
  | zero => exact hstop
  | succ n ih =>
    refine (hround x m s h).bind fun r m s hr => ?_
    cases r with
    | inl x => exact ih hr
    | inr a => exact hr

/-- A loop ends whose rounds that go on make a measure smaller. -/
theorem obeys_loop_of_lt {round : S → Program Ret (S ⊕ α)} (inv : S → M → σ → Prop)
    (measure : σ → Nat)
    (hround : ∀ x m s, inv x m s → (round x).Obeys exec watch mayStop
      (fun r m s' => r.elim (fun y => inv y m s' ∧ measure s' < measure s) (Q · m s')) m s)
    (n : Nat) {x : S} (h : inv x m s) (hn : measure s < n) :
    (loop round n x).Obeys exec watch mayStop Q m s := by
  induction n generalizing x m s with
  | zero => exact absurd hn (Nat.not_lt_zero _)
  | succ n ih =>
    refine (hround x m s h).bind fun r m s' hr => ?_
    cases r with
    | inl x => exact ih hr.1 (by have := hr.2; omega)
    | inr a => exact hr

/-- The log is accepted, and the result is as it should be. -/
theorem Obeys.log {p : Program Ret α} (h : p.Obeys exec watch mayStop Q m s) :
    ∃ m', (p.run exec s).1.foldlM watch m = some m' ∧
      ((p.run exec s).2.elim mayStop fun r => Q r.1 m' r.2) := by
  induction p generalizing m s with
  | ret a => exact ⟨m, rfl, h⟩
  | stop => exact ⟨m, rfl, h⟩
  | op o next ih =>
    obtain ⟨m', hwatch, hnext⟩ := h
    obtain ⟨m'', hlog, hresult⟩ := ih _ hnext
    refine ⟨m'', ?_, hresult⟩
    rw [run, List.foldlM_cons, hwatch]
    exact hlog

/-- A program that is not given up ends. -/
theorem Obeys.ends {p : Program Ret α} (h : p.Obeys exec watch False Q m s) :
    ∃ m' a s', (p.run exec s).1.foldlM watch m = some m' ∧ (p.run exec s).2 = some (a, s') ∧
      Q a m' s' := by
  obtain ⟨m', hlog, hresult⟩ := h.log
  cases hrun : (p.run exec s).2 with
  | none =>
    rw [hrun] at hresult
    exact hresult.elim
  | some r =>
    rw [hrun] at hresult
    exact ⟨m', r.1, r.2, hlog, rfl, hresult⟩

end Liigboot.Program
