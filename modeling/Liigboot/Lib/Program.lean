import Mathlib.Data.List.Chain
import Mathlib.Tactic.Common

/-!
# Programs that call operations

A program is a tree of the operations that it calls, each with what is done for every answer. It
runs on a machine that answers the operations, and the run is logged. What a program keeps up is
proved backwards over the tree: as long as all operations meet an assumption, each of them keeps a
promise.
-/

namespace Liigboot

variable {Op : Type} {Ret : Op → Type} {α β S σ : Type}

/-- A program that calls operations and returns a result, or is given up. -/
inductive Program (Ret : Op → Type) (α : Type) : Type
  | ret (a : α)
  | stop
  | op (o : Op) (next : Ret o → Program Ret α)

namespace Program

def bind : Program Ret α → (α → Program Ret β) → Program Ret β
  | .ret a, f => f a
  | .stop, _ => .stop
  | .op o next, f => .op o fun r => (next r).bind f

instance : Monad (Program Ret) where
  pure := .ret
  bind := .bind

/-- A single operation. -/
def call (o : Op) : Program Ret (Ret o) := .op o .ret

/-- Rounds of a loop, each of which goes on or ends it. The loop is given up after a number of
them. -/
def loop (round : S → Program Ret (S ⊕ α)) : Nat → S → Program Ret α
  | 0, _ => .stop
  | n + 1, x => (round x).bind fun
    | .inl x => loop round n x
    | .inr a => .ret a

end Program

/-- A call of an operation, with its answer and the states of the machine around it. -/
structure Event (Ret : Op → Type) (σ : Type) where
  op : Op
  res : Ret op
  before : σ
  after : σ

/-- The call of an operation in a state. -/
def eventOf (exec : (o : Op) → σ → Ret o × σ) (o : Op) (s : σ) : Event Ret σ :=
  ⟨o, (exec o s).1, s, (exec o s).2⟩

/-- A run of a program: its log, and its result with the last state. -/
def Program.run (exec : (o : Op) → σ → Ret o × σ) :
    Program Ret α → σ → List (Event Ret σ) × Option (α × σ)
  | .ret a, s => ([], some (a, s))
  | .stop, _ => ([], none)
  | .op o next, s =>
    let r := (next (exec o s).1).run exec (exec o s).2
    (eventOf exec o s :: r.1, r.2)

/-- As long as the events of a run meet an assumption, they keep a promise, and the result and the
last state are as they should be. -/
def Program.Keeps (exec : (o : Op) → σ → Ret o × σ) (assumed promised : Event Ret σ → Prop)
    (Q : α → σ → Prop) : Program Ret α → σ → Prop
  | .ret a, s => Q a s
  | .stop, _ => True
  | .op o next, s =>
    assumed (eventOf exec o s) → promised (eventOf exec o s) ∧
      (next (exec o s).1).Keeps exec assumed promised Q (exec o s).2

/-- A run comes to its end, with a result and a last state as they should be. -/
def Program.Ends (exec : (o : Op) → σ → Ret o × σ) (Q : α → σ → Prop) (p : Program Ret α) (s : σ) :
    Prop :=
  ∃ a s', (p.run exec s).2 = some (a, s') ∧ Q a s'

variable {exec : (o : Op) → σ → Ret o × σ} {assumed promised : Event Ret σ → Prop}
  {P Q : α → σ → Prop} {s : σ}

namespace Program

/-! ## Runs -/

/-- The run of a sequence is the run of its first part with that of the second. -/
theorem run_bind (p : Program Ret α) (f : α → Program Ret β) (s : σ) :
    (p.bind f).run exec s =
      ((p.run exec s).1 ++ (((p.run exec s).2.map fun r => (f r.1).run exec r.2).getD ([], none)).1,
        (((p.run exec s).2.map fun r => (f r.1).run exec r.2).getD ([], none)).2) := by
  induction p generalizing s with
  | ret a => rfl
  | stop => rfl
  | op o next ih =>
    simp only [bind, run, ih, List.cons_append]

/-- A single operation ends with its answer. -/
theorem run_call {o : Op} {r : Ret o} {s' : σ} (h : exec o s = (r, s')) :
    ((call o).run exec s).2 = some (r, s') := by
  simp [call, run, h]

/-- What is logged by the first part of a sequence is logged. -/
theorem log_isPrefix_bind (p : Program Ret α) (f : α → Program Ret β) (s : σ) :
    (p.run exec s).1 <+: ((p.bind f).run exec s).1 := by
  rw [run_bind]
  exact List.prefix_append _ _

/-- All events are calls of the machine. -/
theorem eq_eventOf_of_mem_log {p : Program Ret α} {e : Event Ret σ}
    (h : e ∈ (p.run exec s).1) : e = eventOf exec e.op e.before := by
  induction p generalizing s with
  | ret a => exact absurd h List.not_mem_nil
  | stop => exact absurd h List.not_mem_nil
  | op o next ih =>
    rcases List.mem_cons.mp h with rfl | h
    · rfl
    · exact ih _ h

/-- Each event begins where the one in front of it ended. -/
theorem isChain_log (p : Program Ret α) (s : σ) :
    (p.run exec s).1.IsChain fun e e' => e.after = e'.before := by
  induction p generalizing s with
  | ret a => exact .nil
  | stop => exact .nil
  | op o next ih =>
    refine List.isChain_cons.mpr ⟨fun e he => ?_, ih _ _⟩
    generalize next (exec o s).1 = p at he
    cases p with
    | ret a => cases he
    | stop => cases he
    | op o' next' =>
      cases he
      rfl

/-! ## Promises -/

/-- A weaker postcondition is kept too. -/
theorem Keeps.mono {p : Program Ret α} (h : p.Keeps exec assumed promised P s)
    (hPQ : ∀ a s, P a s → Q a s) : p.Keeps exec assumed promised Q s := by
  induction p generalizing s with
  | ret a => exact hPQ a s h
  | stop => trivial
  | op o next ih =>
    intro hassumed
    exact ⟨(h hassumed).1, ih _ (h hassumed).2⟩

/-- A program is kept if its first part leads to where the second is. -/
@[simp] theorem keeps_bind {p : Program Ret β} {f : β → Program Ret α} :
    (p.bind f).Keeps exec assumed promised Q s ↔
      p.Keeps exec assumed promised (fun b => (f b).Keeps exec assumed promised Q) s := by
  induction p generalizing s with
  | ret a => exact Iff.rfl
  | stop => exact Iff.rfl
  | op o next ih =>
    simp only [bind, Keeps, ih]

/-- A sequence is proved in its order. -/
theorem Keeps.bind {R : β → σ → Prop} {p : Program Ret β} {f : β → Program Ret α}
    (hp : p.Keeps exec assumed promised R s)
    (hf : ∀ b s, R b s → (f b).Keeps exec assumed promised Q s) :
    (p.bind f).Keeps exec assumed promised Q s :=
  keeps_bind.mpr (hp.mono hf)

/-- A loop keeps what all its rounds keep. -/
theorem keeps_loop {round : S → Program Ret (S ⊕ α)} {inv : S → σ → Prop}
    (hround : ∀ x s, inv x s →
      (round x).Keeps exec assumed promised (fun r => r.elim inv Q) s)
    (n : Nat) {x : S} (h : inv x s) : (loop round n x).Keeps exec assumed promised Q s := by
  induction n generalizing x s with
  | zero => trivial
  | succ n ih =>
    refine (hround x s h).bind fun r s hr => ?_
    cases r with
    | inl x => exact ih hr
    | inr a => exact hr

/-- In a run, all events keep the promise up to the first that does not meet the assumption. -/
theorem Keeps.log {p : Program Ret α} (h : p.Keeps exec assumed promised Q s)
    {front : List (Event Ret σ)} (hfront : front <+: (p.run exec s).1)
    (hassumed : ∀ e ∈ front, assumed e) : ∀ e ∈ front, promised e := by
  induction p generalizing s front with
  | ret a =>
    rw [List.prefix_nil.mp hfront]
    exact List.forall_mem_nil _
  | stop =>
    rw [List.prefix_nil.mp hfront]
    exact List.forall_mem_nil _
  | op o next ih =>
    cases front with
    | nil => exact List.forall_mem_nil _
    | cons e front =>
      obtain ⟨rfl, htail⟩ := List.cons_prefix_cons.mp hfront
      obtain ⟨hfirst, hrest⟩ := List.forall_mem_cons.mp hassumed
      exact List.forall_mem_cons.mpr ⟨(h hfirst).1, ih _ (h hfirst).2 htail hrest⟩

/-! ## Ends -/

/-- A finished program ends in its state. -/
@[simp] theorem ends_ret {a : α} : (ret a : Program Ret α).Ends exec Q s ↔ Q a s := by
  simp [Ends, run]

/-- An operation is carried out and the program goes on. -/
theorem ends_op {o : Op} {next : Ret o → Program Ret α} :
    (op o next).Ends exec Q s ↔ (next (exec o s).1).Ends exec Q (exec o s).2 :=
  Iff.rfl

/-- A stopped program does not end. -/
theorem not_ends_stop : ¬ (stop : Program Ret α).Ends exec Q s := by
  simp [Ends, run]

/-- A weaker postcondition is reached too. -/
theorem Ends.mono {p : Program Ret α} (h : p.Ends exec P s) (hPQ : ∀ a s, P a s → Q a s) :
    p.Ends exec Q s := by
  obtain ⟨a, s', hrun, ha⟩ := h
  exact ⟨a, s', hrun, hPQ a s' ha⟩

/-- A program ends if its first part ends where the second does. -/
@[simp] theorem ends_bind {p : Program Ret β} {f : β → Program Ret α} :
    (p.bind f).Ends exec Q s ↔ p.Ends exec (fun b => (f b).Ends exec Q) s := by
  induction p generalizing s with
  | ret a => exact (ends_ret (Q := fun b => (f b).Ends exec Q)).symm
  | stop => exact iff_of_false not_ends_stop not_ends_stop
  | op o next ih => exact ends_op.trans ((ih _).trans ends_op.symm)

/-- A loop ends with its round, or after more of them. -/
theorem ends_loop_succ {round : S → Program Ret (S ⊕ α)} {n : Nat} {x : S} :
    (loop round (n + 1) x).Ends exec Q s ↔
      (round x).Ends exec (fun r => r.elim (fun x => (loop round n x).Ends exec Q) Q) s := by
  rw [loop, ends_bind]
  refine iff_of_eq (congrArg (fun Q => (round x).Ends exec Q s) (funext fun r => ?_))
  cases r with
  | inl x => rfl
  | inr a => exact funext fun s => propext ends_ret

/-! ## Bad events -/

/-- A run gets to an event. -/
def Reaches (exec : (o : Op) → σ → Ret o × σ) (bad : Event Ret σ → Prop) (p : Program Ret α)
    (s : σ) : Prop :=
  ∃ e ∈ (p.run exec s).1, bad e

variable {bad : Event Ret σ → Prop}

/-- The first part of a sequence gets to it. -/
theorem Reaches.bind {p : Program Ret β} (h : p.Reaches exec bad s) (f : β → Program Ret α) :
    (p.bind f).Reaches exec bad s := by
  obtain ⟨e, he, hbad⟩ := h
  exact ⟨e, (log_isPrefix_bind p f s).subset he, hbad⟩

/-- The second part of a sequence gets to it from where the first one ends. -/
theorem reaches_bind_of_run {a : β} {s' : σ} {p : Program Ret β} {f : β → Program Ret α}
    (hrun : (p.run exec s).2 = some (a, s')) (h : (f a).Reaches exec bad s') :
    (p.bind f).Reaches exec bad s := by
  obtain ⟨e, he, hbad⟩ := h
  refine ⟨e, ?_, hbad⟩
  rw [run_bind, hrun]
  exact List.mem_append_right _ he

end Program

end Liigboot
