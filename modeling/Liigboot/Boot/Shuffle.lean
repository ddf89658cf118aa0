import Liigboot.Lib.Moves

/-!
# The shuffler

`pm_shuffle` executes a list of descriptors in protected mode, up to the first one whose length
is zero. The target of that one is the entry point, and its source tells the mode to enter.
-/

namespace Liigboot.Boot

/-- A byte for each address. -/
abbrev Memory := Nat → UInt8

/-- A descriptor: target, source and length. -/
structure Descriptor where
  dst : UInt32
  src : UInt32
  len : UInt32
  deriving DecidableEq, Repr

/-- The move of a descriptor. -/
def Descriptor.move (d : Descriptor) : Move := ⟨d.dst.toNat, d.src.toNat, d.len.toNat⟩

/-- `pm_bcopy`: a copy that is safe for ranges that overlap, or zeros when the source is -1. -/
def pmBcopy (d : Descriptor) (mem : Memory) : Memory :=
  if d.src = 0xFFFFFFFF then
    fun a => if d.dst.toNat ≤ a ∧ a < d.dst.toNat + d.len.toNat then 0 else mem a
  else d.move.run mem

/-- The loop of `pm_shuffle`: the memory, and the descriptor that ends the list. -/
def pmShuffle : List Descriptor → Memory → Memory × Option Descriptor
  | [], mem => (mem, none)
  | d :: list, mem => if d.len = 0 then (mem, some d) else pmShuffle list (pmBcopy d mem)

/-- The descriptor that `replace_bootstrap` puts behind the list: the entry point is the stub, in
16-bit mode. -/
def terminator (replaceStub : UInt32) : Descriptor := ⟨replaceStub, 0, 0⟩

variable {list : List Descriptor} {mem : Memory} {last : Descriptor}

/-- Without a length of zero in front of the last descriptor, all descriptors are executed. -/
theorem pmShuffle_eq (hlist : ∀ d ∈ list, d.len ≠ 0) (hlast : last.len = 0) :
    pmShuffle (list ++ [last]) mem = (list.foldl (fun mem d => pmBcopy d mem) mem, some last) := by
  induction list generalizing mem with
  | nil => exact if_pos hlast
  | cons d list ih =>
    rw [List.forall_mem_cons] at hlist
    rw [List.cons_append, pmShuffle, if_neg hlist.1, ih hlist.2]
    rfl

/-- Descriptors that copy are executed as moves. -/
theorem foldl_pmBcopy (h : ∀ d ∈ list, d.src ≠ 0xFFFFFFFF) :
    list.foldl (fun mem d => pmBcopy d mem) mem = runMoves (list.map Descriptor.move) mem := by
  induction list generalizing mem with
  | nil => rfl
  | cons d list ih =>
    rw [List.forall_mem_cons] at h
    rw [List.foldl_cons, ih h.2, pmBcopy, if_neg h.1]
    rfl

end Liigboot.Boot
