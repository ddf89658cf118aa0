import Mathlib.Data.List.Basic
import Mathlib.Tactic.Common

/-!
# Scans

A state machine reads the entries of a list one by one, until it stops with a result, until
the list ends, or until it goes wrong. The entries it reads are those up to the first one at
which it stops; where that depends on the entry alone, whether the scan goes wrong depends
on these entries alone.
-/

namespace Liigboot

variable {α σ ρ : Type*}

/-- What the machine does at an entry. -/
inductive ScanStep (σ ρ : Type*)
  | fault
  | stop (result : ρ)
  | next (state : σ)

/-- The machine does not go wrong, and keeps `P` when it goes on. -/
inductive ScanStep.Keeps (P : σ → Prop) : ScanStep σ ρ → Prop
  | stop {result : ρ} : Keeps P (.stop result)
  | next {state : σ} (h : P state) : Keeps P (.next state)

/-- Read the entries of a list. There is no result when the machine goes wrong. -/
def scan (step : σ → α → ScanStep σ ρ) (atEnd : σ → ρ) : σ → List α → Option ρ
  | state, [] => some (atEnd state)
  | state, a :: rest =>
    match step state a with
    | .fault => none
    | .stop result => some result
    | .next state => scan step atEnd state rest

attribute [local simp] scan

variable {step : σ → α → ScanStep σ ρ} {atEnd : σ → ρ} {state state' : σ} {a : α} {rest : List α}
  {result : ρ}

theorem scan_fault (h : step state a = .fault) : scan step atEnd state (a :: rest) = none := by
  simp [h]

theorem scan_stop (h : step state a = .stop result) :
    scan step atEnd state (a :: rest) = some result := by
  simp [h]

theorem scan_next (h : step state a = .next state') :
    scan step atEnd state (a :: rest) = scan step atEnd state' rest := by
  simp [h]

/-- The entries up to the first one at which the scan stops. -/
def before (stops : α → Bool) (xs : List α) : List α := xs.takeWhile fun a => !stops a

/-- A scan goes wrong at a bad entry in front of the first one that stops it, and only there,
when the entries alone decide on both. -/
theorem scan_eq_none_iff (Inv : σ → Prop) {bad stops : α → Bool}
    (hstop : ∀ state a, Inv state → stops a = true → ∃ result, step state a = .stop result)
    (hbad : ∀ state a, Inv state → stops a = false → bad a = true → step state a = .fault)
    (hnext : ∀ state a, Inv state → stops a = false → bad a = false →
      ∃ state', step state a = .next state' ∧ Inv state')
    (hinv : Inv state) (xs : List α) :
    scan step atEnd state xs = none ↔ ∃ a ∈ before stops xs, bad a = true := by
  induction xs generalizing state with
  | nil => simp [before]
  | cons a rest ih =>
    cases hs : stops a with
    | true =>
      obtain ⟨result, h⟩ := hstop state a hinv hs
      rw [scan_stop h]
      simp [before, hs]
    | false =>
      have hcons : before stops (a :: rest) = a :: before stops rest := by
        rw [before, List.takeWhile_cons, hs]
        rfl
      rw [hcons, List.exists_mem_cons_iff]
      cases hb : bad a with
      | true =>
        rw [scan_fault (hbad state a hinv hs hb)]
        exact ⟨fun _ => Or.inl rfl, fun _ => rfl⟩
      | false =>
        obtain ⟨state', h, hinv'⟩ := hnext state a hinv hs hb
        rw [scan_next h, ih hinv']
        simp

/-- A scan whose machine never goes wrong has a result. -/
theorem scan_ne_none (Inv : σ → Prop)
    (hstep : ∀ state a, Inv state → (step state a).Keeps Inv) (hinv : Inv state) (xs : List α) :
    scan step atEnd state xs ≠ none := by
  induction xs generalizing state with
  | nil => exact Option.some_ne_none _
  | cons a rest ih =>
    have hkeep := hstep state a hinv
    cases h : step state a with
    | fault =>
      rw [h] at hkeep
      cases hkeep
    | stop result =>
      rw [scan_stop h]
      exact Option.some_ne_none _
    | next state' =>
      rw [scan_next h]
      rw [h] at hkeep
      cases hkeep with
      | next hkeep => exact ih hkeep

/-! ## Blocks of entries -/

/-- Read the entries of a block, and go on behind it if the machine does not stop. -/
def scanBlock (step : σ → α → ScanStep σ ρ) : σ → List α → ScanStep σ ρ
  | state, [] => .next state
  | state, a :: rest =>
    match step state a with
    | .fault => .fault
    | .stop result => .stop result
    | .next state => scanBlock step state rest

attribute [local simp] scanBlock

/-- A scan of a block and what lies behind it. -/
theorem scan_append (xs ys : List α) :
    scan step atEnd state (xs ++ ys) =
      match scanBlock step state xs with
      | .fault => none
      | .stop result => some result
      | .next state => scan step atEnd state ys := by
  induction xs generalizing state with
  | nil => rfl
  | cons a xs ih =>
    rw [List.cons_append, scan, scanBlock]
    cases step state a with
    | fault => rfl
    | stop result => rfl
    | next state => exact ih

end Liigboot
