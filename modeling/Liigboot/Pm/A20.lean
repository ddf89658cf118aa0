import Liigboot.Lib.Monitor
import Mathlib.Logic.Function.Basic

/-!
# The A20 gate

`enable_a20` opens the gate of the address line 20 before each switch to protected mode. It asks the
BIOS, then the keyboard controller, then the port 92h, and after each of them it looks whether a
word in low memory and the word one megabyte above are still the same. The hardware is a parameter,
and so is the BIOS: any operation may open the gate or close it. The keyboard controller is written
to only when it is ready, and a command that was begun is always completed.
-/

namespace Liigboot.A20

open Program

/-! ## The source -/

/-- The operations on the memory, the ports and the BIOS. -/
inductive Op
  /-- `mov eax,[cs:A20Test]` -/
  | loadTest
  /-- `mov [cs:A20Test],eax` -/
  | storeTest (eax : UInt32)
  /-- What `cmp eax,[es:A20Test+10h]` reads. -/
  | loadHma
  | ioDelay
  | inb (port : Nat)
  | outb (port : Nat) (al : UInt8)
  | int15 (ax : Nat)

/-- The answers. -/
def Op.Ret : Op → Type
  | .loadTest | .loadHma => UInt32
  | .inb _ => UInt8
  | .storeTest _ | .ioDelay | .outb .. | .int15 _ => Unit

/-- The state of the hardware, and the dwords of the physical memory. -/
structure State (H : Type) where
  hw : H
  mem : Nat → UInt32

/-- The hardware with its gate, the BIOS, and the address of `A20Test`. -/
structure Board (H : Type) where
  a20 : H → Bool
  ioDelay : H → H
  inb : Nat → H → UInt8 × H
  outb : Nat → UInt8 → H → H
  int15 : Nat → State H → State H
  testAddr : Nat
  testAddr_lt : testAddr + 0x10 < 0x10000

/-- The physical address of `seg:off`. The address line 20 is low while the gate is closed. -/
def physical (a20 : Bool) (seg off : Nat) : Nat :=
  let a := seg * 16 + off % 0x10000
  if a20 then a else a - a / 0x100000 % 2 * 0x100000

section source

variable {H : Type}

/-- The machine. -/
def Board.exec (b : Board H) : (o : Op) → State H → o.Ret × State H
  | .loadTest, s => (s.mem (physical (b.a20 s.hw) 0 b.testAddr), s)
  | .storeTest eax, s =>
    ((), { s with mem := Function.update s.mem (physical (b.a20 s.hw) 0 b.testAddr) eax })
  | .loadHma, s => (s.mem (physical (b.a20 s.hw) 0xffff (b.testAddr + 0x10)), s)
  | .ioDelay, s => ((), { s with hw := b.ioDelay s.hw })
  | .inb port, s => ((b.inb port s.hw).1, { s with hw := (b.inb port s.hw).2 })
  | .outb port al, s => ((), { s with hw := b.outb port al s.hw })
  | .int15 ax, s => ((), b.int15 ax s)

/-- `a20_test.test`, when `loopz` can go back a number of times: whether the two words differ. -/
def test : Nat → UInt32 → Program Op.Ret Bool
  | 0, eax => .op .loadHma fun hma => .ret (eax != hma)
  | cx + 1, eax =>
    .op .loadHma fun hma =>
      if eax != hma then .ret true
      else
        .op (.storeTest (eax + 0x430aea41)) fun _ => .op .ioDelay fun _ =>
          test cx (eax + 0x430aea41)

/-- `a20_test` -/
def a20Test : Program Op.Ret Bool := .op .loadTest fun eax => test 31 eax

/-- A round of `empty_8042`: it ends with the gate found open, if `dl` asks for that, or with the
keyboard controller ready. -/
def emptyRound (dl : Bool) : Unit → Program Op.Ret (Unit ⊕ Bool) := fun _ =>
  a20Test.bind fun live =>
    if live && dl then .ret (.inr true)
    else
      .op .ioDelay fun _ => .op (.inb 0x64) fun (al : UInt8) =>
        if al &&& 1 ≠ 0 then .op .ioDelay fun _ => .op (.inb 0x60) fun _ => .ret (.inl ())
        else if al &&& 2 ≠ 0 then .ret (.inl ())
        else .op .ioDelay fun _ => .ret (.inr false)

/-- `empty_8042`, given up after a number of rounds. -/
def empty8042 (n : Nat) (dl : Bool) : Program Op.Ret Bool := loop (emptyRound dl) n ()

/-- `.kbc_wait_loop` and `.fast_wait_loop`. -/
def waitLoop : Nat → Program Op.Ret Bool
  | 0 => .ret false
  | cx + 1 => a20Test.bind fun live => if live then .ret true else waitLoop cx

/-- What `A20Ptr` can be; `a20_dunno` is the address of `a20_bios`. -/
inductive A20Ptr
  | a20Bios
  | a20Kbc
  | a20Fast
  deriving DecidableEq, Repr

/-- `a20_fast` -/
def a20Fast : Program Op.Ret (Bool × A20Ptr) :=
  .op (.inb 0x92) fun (al : UInt8) => .op (.outb 0x92 ((al ||| 0x02) &&& 0xfe)) fun _ =>
    (waitLoop 0x10000).bind fun live => .ret (live, .a20Fast)

/-- `a20_kbc` -/
def a20Kbc (n : Nat) (ptr : A20Ptr) : Program Op.Ret (Bool × A20Ptr) :=
  (empty8042 n true).bind fun live =>
    if live then .ret (true, ptr)
    else
      .op (.outb 0x64 0xd1) fun _ => (empty8042 n false).bind fun _ =>
      .op (.outb 0x60 0xdf) fun _ => (empty8042 n false).bind fun _ =>
      .op (.outb 0x64 0xff) fun _ => (empty8042 n false).bind fun _ =>
        (waitLoop 0x10000).bind fun live => if live then .ret (true, .a20Kbc) else a20Fast

/-- `a20_bios` -/
def a20Bios (n : Nat) : Program Op.Ret (Bool × A20Ptr) :=
  .op (.int15 0x2401) fun _ => a20Test.bind fun live =>
    if live then .ret (true, .a20Bios) else a20Kbc n .a20Bios

/-- `jmp word [cs:A20Ptr]` -/
def jump (n : Nat) : A20Ptr → Program Op.Ret (Bool × A20Ptr)
  | .a20Bios => a20Bios n
  | .a20Kbc => a20Kbc n .a20Kbc
  | .a20Fast => a20Fast

/-- The rounds that `A20Tries` leaves, the first one from a label. Behind the last one, `err_a20`
is written and the load is aborted. -/
def tries (n : Nat) : Nat → A20Ptr → Program Op.Ret (Bool × A20Ptr)
  | 0, _ => .ret (false, .a20Fast)
  | k + 1, label =>
    (jump n label).bind fun (live, ptr) => if live then .ret (true, ptr) else tries n k .a20Bios

/-- `enable_a20`: whether it returns, and `A20Ptr` behind it. -/
def enableA20 (n : Nat) (ptr : A20Ptr) : Program Op.Ret (Bool × A20Ptr) :=
  a20Test.bind fun live => if live then .ret (true, ptr) else tries n 255 ptr

end source

/-! ## The two words -/

variable {H : Type} {b : Board H} {s : State H} {eax : UInt32}

/-- The gate is open. -/
def Board.Open (b : Board H) (s : State H) : Prop := b.a20 s.hw = true

/-- The word one megabyte above `A20Test`. -/
def Board.high (b : Board H) (s : State H) : UInt32 := s.mem (0x100000 + b.testAddr)

/-- `A20Test` -/
def Board.low (b : Board H) (s : State H) : UInt32 := s.mem b.testAddr

/-- The low test address is the same with the gate open or not. -/
theorem physical_low (b : Board H) (a20 : Bool) : physical a20 0 b.testAddr = b.testAddr := by
  have := b.testAddr_lt
  cases a20 <;> simp [physical] <;> omega

/-- The high one is a megabyte above it when the gate is open, and the same when it is not. -/
theorem physical_hma (b : Board H) (a20 : Bool) : physical a20 0xffff (b.testAddr + 0x10) =
    if a20 then 0x100000 + b.testAddr else b.testAddr := by
  have := b.testAddr_lt
  cases a20 <;> simp [physical] <;> omega

/-- The test reads the low address. -/
@[simp] theorem exec_loadTest : b.exec .loadTest s = (b.low s, s) := by
  rw [Board.exec, physical_low]
  rfl

/-- The other read gets the high address with the gate open, and the low one otherwise. -/
@[simp] theorem exec_loadHma :
    b.exec .loadHma s = (if b.a20 s.hw then b.high s else b.low s, s) := by
  simp only [Board.exec, physical_hma, Board.high, Board.low]
  split_ifs <;> rfl

/-- What the store leaves. -/
theorem exec_storeTest : (b.exec (.storeTest eax) s).2.hw = s.hw ∧
    b.low (b.exec (.storeTest eax) s).2 = eax ∧ b.high (b.exec (.storeTest eax) s).2 = b.high s := by
  simp [Board.exec, physical_low, Board.low, Board.high]

/-! ## The monitor -/

/-- What the keyboard controller waits for: nothing, the byte behind `0D1h`, or the null command
that ends the sequence. -/
inductive Command
  | none
  | outputPort
  | null
  deriving DecidableEq, Repr

/-- What is known of the hardware: the last status of the keyboard controller, if nothing was read
or written since, what it waits for, and what was read from the port 92h. Two more fields count the
writes to the port 92h, and tell whether the gate was open in front of an `io_delay`. -/
structure Seen where
  status : Option UInt8
  command : Command
  port92 : Option UInt8
  writes92 : Nat
  wasOpen : Bool
  deriving DecidableEq, Repr

/-- Nothing is known yet. -/
def Seen.nothing : Seen := ⟨none, .none, none, 0, false⟩

/-- The output buffer of the keyboard controller is full. -/
def Seen.OutputFull (m : Seen) : Prop := ∃ al ∈ m.status, al &&& 1 ≠ 0

/-- Both buffers of the keyboard controller are empty. -/
def Seen.Ready (m : Seen) : Prop := ∃ al ∈ m.status, al &&& 1 = 0 ∧ al &&& 2 = 0

instance (m : Seen) : Decidable m.OutputFull := inferInstanceAs (Decidable (∃ al ∈ _, _))

instance (m : Seen) : Decidable m.Ready := inferInstanceAs (Decidable (∃ al ∈ _, _))

/-- A port is read. Data is taken from the keyboard controller only when there is some. -/
def Seen.inb (m : Seen) (port : Nat) (al : UInt8) : Option Seen :=
  if port = 0x64 then some { m with status := some al }
  else if port = 0x92 then some { m with port92 := some al }
  else if port = 0x60 ∧ m.OutputFull then some { m with status := none }
  else none

/-- A port is written to. The port 92h keeps its other bits, and its bit 0, which would reset the
machine, is never set. The keyboard controller gets its bytes in order, and only when it is ready. -/
def Seen.outb (m : Seen) (port : Nat) (al : UInt8) : Option Seen :=
  if port = 0x92 then
    if m.command = .none ∧ ∃ old ∈ m.port92, al = (old ||| 0x02) &&& 0xfe then
      some { m with port92 := none, writes92 := m.writes92 + 1 }
    else none
  else if ¬ m.Ready then none
  else if port = 0x64 ∧ al = 0xd1 ∧ m.command = .none then
    some { m with status := none, command := .outputPort }
  else if port = 0x60 ∧ al = 0xdf ∧ m.command = .outputPort then
    some { m with status := none, command := .null }
  else if port = 0x64 ∧ al = 0xff ∧ m.command = .null then
    some { m with status := none, command := .none }
  else none

/-- The monitor. The BIOS is called only when the keyboard controller waits for nothing. -/
def Board.watch (b : Board H) (m : Seen) : Event Op.Ret (State H) → Option Seen
  | ⟨.inb port, al, _, _⟩ => m.inb port al
  | ⟨.outb port al, _, _, _⟩ => m.outb port al
  | ⟨.int15 ax, _, _, _⟩ => if ax = 0x2401 ∧ m.command = .none then some m else none
  | ⟨.ioDelay, _, before, _⟩ => some { m with wasOpen := m.wasOpen || b.a20 before.hw }
  | ⟨.loadTest, _, _, _⟩ | ⟨.storeTest _, _, _, _⟩ | ⟨.loadHma, _, _, _⟩ => some m

/-! ## What the hardware does -/

/-- No operation closes a gate that is open. -/
structure Board.StaysOpen (b : Board H) : Prop where
  ioDelay : ∀ h, b.a20 h = true → b.a20 (b.ioDelay h) = true
  inb : ∀ port h, b.a20 h = true → b.a20 (b.inb port h).2 = true
  outb : ∀ port al h, b.a20 h = true → b.a20 (b.outb port al h) = true
  int15 : ∀ ax s, b.a20 s.hw = true → b.a20 (b.int15 ax s).hw = true

/-- The keyboard controller gets ready: each round of `empty_8042` that finds it busy makes a bounded
number smaller. -/
structure Board.GetsReady (b : Board H) (busy : H → Nat) (bound : Nat) : Prop where
  busy_le : ∀ h, busy h ≤ bound
  ioDelay : ∀ h, busy (b.ioDelay h) ≤ busy h
  output : ∀ h, (b.inb 0x64 h).1 &&& 1 ≠ 0 →
    busy (b.inb 0x60 (b.ioDelay (b.inb 0x64 h).2)).2 < busy h
  input : ∀ h, (b.inb 0x64 h).1 &&& 2 ≠ 0 → busy (b.inb 0x64 h).2 < busy h

/-- A gate that was open is open, unless the hardware closes it. -/
def Board.Knows (b : Board H) (m : Seen) (s : State H) : Prop :=
  b.StaysOpen → m.wasOpen = true → b.Open s

variable {mayStop : Prop} {m m' : Seen} {live dl : Bool} {n : Nat}

/-- What is known of the gate stays known in a delay. -/
theorem Board.Knows.ioDelay (h : b.Knows m s) :
    b.Knows { m with wasOpen := m.wasOpen || b.a20 s.hw } (b.exec .ioDelay s).2 := by
  intro hkeeps hwas
  refine hkeeps.ioDelay _ ?_
  rcases Bool.or_eq_true_iff.mp hwas with hwas | hwas
  · exact h hkeeps hwas
  · exact hwas

/-- It stays known when a port is read. -/
theorem Board.Knows.inb (h : b.Knows m s) (port : Nat) (hm : m'.wasOpen = m.wasOpen) :
    b.Knows m' (b.exec (.inb port) s).2 :=
  fun hkeeps hwas => hkeeps.inb _ _ (h hkeeps (hm ▸ hwas))

/-- It stays known when a port is written. -/
theorem Board.Knows.outb (h : b.Knows m s) (port : Nat) (al : UInt8)
    (hm : m'.wasOpen = m.wasOpen) : b.Knows m' (b.exec (.outb port al) s).2 :=
  fun hkeeps hwas => hkeeps.outb _ _ _ (h hkeeps (hm ▸ hwas))

/-- It stays known in a call of the BIOS. -/
theorem Board.Knows.int15 (h : b.Knows m s) (ax : Nat) : b.Knows m (b.exec (.int15 ax) s).2 :=
  fun hkeeps hwas => hkeeps.int15 _ _ (h hkeeps hwas)

/-! ## The test -/

/-- How a test leaves things: nothing is learnt but that the gate was open. A gate that is found open
is open, and one that was open is found. -/
structure Tested (b : Board H) (m : Seen) (s : State H) (live : Bool) (m' : Seen) (s' : State H) :
    Prop where
  same : ∃ wasOpen, m' = { m with wasOpen }
  isOpen : live = true → b.Open s'
  found : b.StaysOpen → live = false → m'.wasOpen = false
  busy_le : ∀ busy bound, b.GetsReady busy bound → busy s'.hw ≤ busy s.hw

/-- What was learnt before does not matter. -/
theorem Tested.of_later {m₁ m' : Seen} {s₁ s' : State H} (h : Tested b m₁ s₁ live m' s')
    (hm : ∃ wasOpen, m₁ = { m with wasOpen })
    (hbusy : ∀ busy bound, b.GetsReady busy bound → busy s₁.hw ≤ busy s.hw) :
    Tested b m s live m' s' := by
  obtain ⟨w₁, rfl⟩ := hm
  obtain ⟨⟨w, rfl⟩, hopen, hfound, hle⟩ := h
  exact ⟨⟨w, rfl⟩, hopen, hfound, fun busy bound hready =>
    (hle busy bound hready).trans (hbusy busy bound hready)⟩

/-- The word that the compare reads. -/
def Board.hma (b : Board H) (s : State H) : UInt32 := if b.a20 s.hw then b.high s else b.low s

/-- Where the addresses have different contents the gate is open. -/
theorem isOpen_of_ne (h : b.low s ≠ b.hma s) : b.Open s := by
  rw [Board.hma] at h
  split_ifs at h with hopen
  · exact hopen
  · exact absurd rfl h

/-- With the gate open the high address has its own content. -/
theorem hma_of_open (h : b.Open s) : b.hma s = b.high s := if_pos h

/-- A compare that finds a difference ends the test. -/
theorem tested_of_ne (hne : b.low s ≠ b.hma s) : Tested b m s true m s :=
  ⟨⟨m.wasOpen, rfl⟩, fun _ => isOpen_of_ne hne, fun _ h => (Bool.noConfusion h), fun _ _ _ => le_rfl⟩

/-- The next word is another one. -/
theorem ne_add_prime (eax : UInt32) : eax ≠ eax + 0x430aea41 := by
  intro h
  have hnat := congrArg UInt32.toNat h
  have hlt := eax.toNat_lt
  rw [UInt32.toNat_add] at hnat
  simp at hnat
  omega

/-- The last compare. -/
theorem test_zero_obeys (hlow : b.low s = eax)
    (hseen : b.StaysOpen → m.wasOpen = true → b.Open s ∧ b.high s ≠ eax) :
    (test 0 eax).Obeys b.exec b.watch mayStop (Tested b m s) m s := by
  refine obeys_op rfl ?_
  rw [exec_loadHma]
  change Tested b m s (eax != b.hma s) m s
  by_cases hne : eax = b.hma s
  · rw [hne, bne_self_eq_false]
    refine ⟨⟨m.wasOpen, rfl⟩, fun h => Bool.noConfusion h, fun hkeeps _ => ?_, fun _ _ _ => le_rfl⟩
    by_contra hwas
    obtain ⟨hopen, hhigh⟩ := hseen hkeeps (by simpa using hwas)
    exact hhigh (hne.trans (hma_of_open hopen)).symm
  · rw [bne_iff_ne.mpr hne]
    exact tested_of_ne (hlow ▸ hne)

/-- `a20_test.wait`: the state in front of the next compare. -/
def Board.waited (b : Board H) (s : State H) (eax : UInt32) : State H :=
  (b.exec .ioDelay (b.exec (.storeTest eax) s).2).2

/-- The store of the test is at the low address. -/
theorem low_waited : b.low (b.waited s eax) = eax := exec_storeTest.2.1

/-- The store of the test leaves the high address. -/
theorem high_waited : b.high (b.waited s eax) = b.high s := exec_storeTest.2.2

/-- A compare behind which there is another one: the gate, if it was open, is open still, and the
word that is stored is not the one above. -/
theorem test_succ_obeys {cx : Nat} (hlow : b.low s = eax) (hseen : b.Knows m s)
    (hrest : ∀ m' s', b.low s' = eax + 0x430aea41 →
      (b.StaysOpen → m'.wasOpen = true → b.Open s' ∧ b.high s' ≠ eax + 0x430aea41) →
      (test cx (eax + 0x430aea41)).Obeys b.exec b.watch mayStop (Tested b m' s') m' s') :
    (test (cx + 1) eax).Obeys b.exec b.watch mayStop (Tested b m s) m s := by
  refine obeys_op rfl ?_
  rw [exec_loadHma]
  change (if (eax != b.hma s) = true then _ else _ : Program Op.Ret Bool).Obeys _ _ _ _ _ _
  by_cases hne : eax = b.hma s
  · rw [if_neg (by simpa using hne)]
    refine obeys_op rfl (obeys_op rfl ?_)
    refine (hrest _ (b.waited s (eax + 0x430aea41)) low_waited fun hkeeps hwas => ?_).mono ?_
    · have hopen : b.Open s := by
        rcases Bool.or_eq_true_iff.mp hwas with hwas | hwas
        · exact hseen hkeeps hwas
        · exact hwas
      refine ⟨hseen.ioDelay hkeeps hwas, ?_⟩
      rw [high_waited, ← hma_of_open hopen, ← hne]
      exact ne_add_prime eax
    · intro live m' s' h
      exact h.of_later ⟨_, rfl⟩ fun busy bound hready => hready.ioDelay _
  · rw [if_pos (bne_iff_ne.mpr hne)]
    exact tested_of_ne (hlow ▸ hne)

/-- A run of the test is within the rules, and leaves things as a test does. -/
theorem test_obeys (cx : Nat) (hlow : b.low s = eax)
    (hseen : b.StaysOpen → m.wasOpen = true → b.Open s ∧ b.high s ≠ eax) :
    (test cx eax).Obeys b.exec b.watch mayStop (Tested b m s) m s := by
  induction cx generalizing m s eax with
  | zero => exact test_zero_obeys hlow hseen
  | succ cx ih =>
    exact test_succ_obeys hlow (fun hkeeps hwas => (hseen hkeeps hwas).1) fun m' s' => ih

/-- `a20_test` finds a gate that is open all the time, and no gate that is closed. -/
theorem a20Test_obeys (hseen : b.Knows m s) :
    a20Test.Obeys b.exec b.watch mayStop (Tested b m s) m s := by
  refine obeys_op rfl ?_
  rw [exec_loadTest]
  exact test_succ_obeys rfl hseen fun m' s' => test_obeys 30

/-- What a test has found is known. -/
theorem Tested.knows {s' : State H} (h : Tested b m s live m' s') : b.Knows m' s' := by
  intro hkeeps hwas
  cases live with
  | false => exact absurd hwas (by rw [h.found hkeeps rfl]; exact Bool.false_ne_true)
  | true => exact h.isOpen rfl

/-! ## The keyboard controller -/

/-- What the loops and the commands keep. -/
structure Kept (b : Board H) (command : Command) (writes92 : Nat) (m : Seen) (s : State H) :
    Prop where
  command : m.command = command
  writes92 : m.writes92 = writes92
  knows : b.Knows m s

variable {command : Command} {writes92 : Nat}

/-- A test does not matter to what was written. -/
theorem Tested.kept {s' : State H} (h : Tested b m s live m' s')
    (hkept : Kept b command writes92 m s) : Kept b command writes92 m' s' := by
  have hknows := h.knows
  obtain ⟨w, rfl⟩ := h.same
  exact ⟨hkept.command, hkept.writes92, hknows⟩

/-- A delay breaks no rule. -/
theorem Kept.ioDelay (h : Kept b command writes92 m s) :
    Kept b command writes92 { m with wasOpen := m.wasOpen || b.a20 s.hw } (b.exec .ioDelay s).2 :=
  ⟨h.command, h.writes92, h.knows.ioDelay⟩

/-- Reading a port breaks no rule. -/
theorem Kept.inb (h : Kept b command writes92 m s) (port : Nat) (status port92 : Option UInt8) :
    Kept b command writes92 { m with status, port92 } (b.exec (.inb port) s).2 :=
  ⟨h.command, h.writes92, h.knows.inb port rfl⟩

/-- How `empty_8042` leaves things. -/
structure Emptied (b : Board H) (dl : Bool) (command : Command) (writes92 : Nat) (live : Bool)
    (m : Seen) (s : State H) : Prop where
  kept : Kept b command writes92 m s
  isOpen : live = true → dl = true ∧ b.Open s
  ready : live = false → m.Ready

/-- The data port is read only when there is a byte. -/
theorem Seen.inb_data {al : UInt8} (h : m.OutputFull) :
    m.inb 0x60 al = some { m with status := none } := by
  simp [Seen.inb, h]

/-- A round ends the loop, or the keyboard controller is nearer to being ready. -/
theorem emptyRound_obeys (dl : Bool) (x : Unit) (h : Kept b command writes92 m s) :
    (emptyRound dl x).Obeys b.exec b.watch mayStop (fun r m' s' =>
      r.elim (fun _ => Kept b command writes92 m' s' ∧
          ∀ busy bound, b.GetsReady busy bound → busy s'.hw < busy s.hw)
        (Emptied b dl command writes92 · m' s')) m s := by
  refine (a20Test_obeys h.knows).bind fun live m₁ s₁ htest => ?_
  have h₁ := htest.kept h
  by_cases hdl : (live && dl) = true
  · rw [if_pos hdl]
    obtain ⟨hlive, hdl⟩ := Bool.and_eq_true_iff.mp hdl
    exact ⟨h₁, fun _ => ⟨hdl, htest.isOpen hlive⟩, fun hfalse => Bool.noConfusion hfalse⟩
  · rw [if_neg hdl]
    refine obeys_op rfl (obeys_op rfl ?_)
    have h₂ := h₁.ioDelay
    generalize hs₂ : (b.exec .ioDelay s₁).2 = s₂ at h₂ ⊢
    have hle : ∀ busy bound, b.GetsReady busy bound → busy s₂.hw ≤ busy s.hw := by
      intro busy bound hready
      rw [← hs₂]
      exact (hready.ioDelay _).trans (htest.busy_le busy bound hready)
    change (if (b.inb 0x64 s₂.hw).1 &&& 1 ≠ 0 then _ else
      if (b.inb 0x64 s₂.hw).1 &&& 2 ≠ 0 then _ else _ : Program Op.Ret (Unit ⊕ Bool)).Obeys
        _ _ _ _ _ _
    split_ifs with hout hin
    · refine obeys_op rfl (obeys_op (Seen.inb_data ⟨_, rfl, hout⟩) ⟨?_, fun busy bound hready => ?_⟩)
      · exact (h₂.inb 0x64 _ _).ioDelay.inb 0x60 _ _
      · exact (hready.output _ hout).trans_le (hle busy bound hready)
    · refine ⟨h₂.inb 0x64 _ _, fun busy bound hready => ?_⟩
      exact (hready.input _ hin).trans_le (hle busy bound hready)
    · have hboth : (b.inb 0x64 s₂.hw).1 &&& 1 = 0 ∧ (b.inb 0x64 s₂.hw).1 &&& 2 = 0 :=
        ⟨not_not.mp hout, not_not.mp hin⟩
      refine obeys_op rfl ⟨(h₂.inb 0x64 _ _).ioDelay, fun hfalse => Bool.noConfusion hfalse, ?_⟩
      exact fun _ => ⟨_, rfl, hboth⟩

/-- Loops that wait for the hardware are allowed to be given up, or the keyboard controller gets
ready in time. -/
def Board.InTime (b : Board H) (mayStop : Prop) (n : Nat) : Prop :=
  mayStop ∨ ∃ busy bound, b.GetsReady busy bound ∧ bound < n

/-- `empty_8042` ends with the keyboard controller ready, or, if it may, with the gate open. -/
theorem empty8042_obeys (hn : b.InTime mayStop n) (h : Kept b command writes92 m s) :
    (empty8042 n dl).Obeys b.exec b.watch mayStop (Emptied b dl command writes92) m s := by
  rcases hn with hstop | ⟨busy, bound, hready, hlt⟩
  · refine obeys_loop (fun _ m s => Kept b command writes92 m s) hstop ?_ n h
    intro x m s h
    refine (emptyRound_obeys dl x h).mono fun r m' s' hr => ?_
    cases r with
    | inl x => exact hr.1
    | inr live => exact hr
  · refine obeys_loop_of_lt (fun _ m s => Kept b command writes92 m s) (fun s => busy s.hw) ?_ n h
      ((hready.busy_le _).trans_lt hlt)
    intro x m s h
    refine (emptyRound_obeys dl x h).mono fun r m' s' hr => ?_
    cases r with
    | inl x => exact ⟨hr.1, hr.2 busy bound hready⟩
    | inr live => exact hr

/-! ## The ways to open the gate -/

/-- How a way to open the gate leaves things. -/
structure Tried (b : Board H) (writes92 : Nat) (live : Bool) (m : Seen) (s : State H) : Prop where
  command : m.command = .none
  knows : b.Knows m s
  isOpen : live = true → b.Open s
  failed : live = false → m.writes92 = writes92 ∧ (b.StaysOpen → m.wasOpen = false)

/-- The wait, which has a test at least, or in front of which the gate was closed. -/
theorem waitLoop_obeys (cx : Nat) (h : Kept b .none writes92 m s)
    (hcx : cx = 0 → b.StaysOpen → m.wasOpen = false) :
    (waitLoop cx).Obeys b.exec b.watch mayStop (Tried b writes92) m s := by
  induction cx generalizing m s with
  | zero =>
    exact ⟨h.command, h.knows, fun hfalse => Bool.noConfusion hfalse, fun _ =>
      ⟨h.writes92, hcx rfl⟩⟩
  | succ cx ih =>
    refine (a20Test_obeys h.knows).bind fun live m₁ s₁ htest => ?_
    have h₁ := htest.kept h
    cases live with
    | true => exact ⟨h₁.command, h₁.knows, htest.isOpen, fun hfalse => Bool.noConfusion hfalse⟩
    | false => exact ih h₁ fun _ hkeeps => htest.found hkeeps rfl

/-- A way leaves a label as well. -/
def TriedAt (b : Board H) (writes92 : Nat) (r : Bool × A20Ptr) (m : Seen) (s : State H) : Prop :=
  Tried b writes92 r.1 m s

/-- A method is done when the gate is open. -/
theorem Tried.found (h : Kept b .none writes92 m s) (hopen : b.Open s) {k : Nat} :
    Tried b k true m s :=
  ⟨h.command, h.knows, fun _ => hopen, fun hfalse => Bool.noConfusion hfalse⟩

/-- The port 92h is written with the bits that were read from it. -/
theorem Seen.outb_fast {old : UInt8} (hcommand : m.command = .none) (hold : m.port92 = some old) :
    m.outb 0x92 ((old ||| 0x02) &&& 0xfe) =
      some { m with port92 := none, writes92 := m.writes92 + 1 } := by
  rw [Seen.outb, if_pos rfl, if_pos ⟨hcommand, old, hold, rfl⟩]

/-- The port 92h is read, and written to with its bit 1. -/
theorem a20Fast_obeys (h : Kept b .none writes92 m s) :
    a20Fast.Obeys b.exec b.watch mayStop (TriedAt b (writes92 + 1)) m s := by
  refine obeys_op rfl (obeys_op (Seen.outb_fast h.command rfl) ?_)
  have hkept : Kept b .none (writes92 + 1)
      { { m with port92 := some (b.inb 0x92 s.hw).1 } with
        port92 := none, writes92 := m.writes92 + 1 }
      (b.exec (.outb 0x92 (((b.inb 0x92 s.hw).1 ||| 0x02) &&& 0xfe)) (b.exec (.inb 0x92) s).2).2 :=
    ⟨h.command, congrArg (· + 1) h.writes92,
      (h.inb 0x92 m.status (some (b.inb 0x92 s.hw).1)).knows.outb _ _ rfl⟩
  exact (waitLoop_obeys 0x10000 hkept fun hzero => absurd hzero (by decide)).bind
    fun live m' s' htried => htried

/-- The command for the output port is sent when the controller is ready. -/
theorem Seen.outb_command (h : m.Ready) (hcommand : m.command = .none) :
    m.outb 0x64 0xd1 = some { m with status := none, command := .outputPort } := by
  simp [Seen.outb, h, hcommand]

/-- Its byte is sent when the controller is ready again. -/
theorem Seen.outb_byte (h : m.Ready) (hcommand : m.command = .outputPort) :
    m.outb 0x60 0xdf = some { m with status := none, command := .null } := by
  simp [Seen.outb, h, hcommand]

/-- The null command is sent when the controller is ready. -/
theorem Seen.outb_null (h : m.Ready) (hcommand : m.command = .null) :
    m.outb 0x64 0xff = some { m with status := none, command := .none } := by
  simp [Seen.outb, h, hcommand]

/-- Writing a port as the rules ask for breaks none. -/
theorem Kept.outb (h : Kept b command writes92 m s) (port : Nat) (al : UInt8) (next : Command) :
    Kept b next writes92 { m with status := none, command := next } (b.exec (.outb port al) s).2 :=
  ⟨rfl, h.writes92, h.knows.outb port al rfl⟩

/-- `empty_8042_uncond` -/
theorem empty8042_false_obeys (hn : b.InTime mayStop n) (h : Kept b command writes92 m s) :
    (empty8042 n false).Obeys b.exec b.watch mayStop
      (fun _ m s => Kept b command writes92 m s ∧ m.Ready) m s := by
  refine (empty8042_obeys hn h).mono fun live m s hempty => ⟨hempty.kept, hempty.ready ?_⟩
  cases live with
  | false => rfl
  | true => exact absurd (hempty.isOpen rfl).1 Bool.false_ne_true

/-- The three bytes go to the keyboard controller in order, each when it is ready. -/
theorem a20Kbc_obeys (hn : b.InTime mayStop n) (h : Kept b .none writes92 m s) (ptr : A20Ptr) :
    (a20Kbc n ptr).Obeys b.exec b.watch mayStop (TriedAt b (writes92 + 1)) m s := by
  refine (empty8042_obeys hn h).bind fun live m s hempty => ?_
  cases live with
  | true => exact Tried.found hempty.kept (hempty.isOpen rfl).2
  | false =>
    have hready := hempty.ready rfl
    refine obeys_op (Seen.outb_command hready hempty.kept.command) ?_
    refine (empty8042_false_obeys hn (hempty.kept.outb 0x64 0xd1 .outputPort)).bind ?_
    rintro - m s ⟨h, hready⟩
    refine obeys_op (Seen.outb_byte hready h.command) ?_
    refine (empty8042_false_obeys hn (h.outb 0x60 0xdf .null)).bind ?_
    rintro - m s ⟨h, hready⟩
    refine obeys_op (Seen.outb_null hready h.command) ?_
    refine (empty8042_false_obeys hn (h.outb 0x64 0xff .none)).bind ?_
    rintro - m s ⟨h, -⟩
    refine (waitLoop_obeys 0x10000 h fun hzero => absurd hzero (by decide)).bind
      fun live m s htried => ?_
    cases live with
    | true => exact Tried.mk htried.command htried.knows htried.isOpen nofun
    | false => exact a20Fast_obeys ⟨htried.command, (htried.failed rfl).1, htried.knows⟩

/-- The BIOS is asked first. -/
theorem a20Bios_obeys (hn : b.InTime mayStop n) (h : Kept b .none writes92 m s) :
    (a20Bios n).Obeys b.exec b.watch mayStop (TriedAt b (writes92 + 1)) m s := by
  refine obeys_op (if_pos ⟨rfl, h.command⟩) ?_
  have hkept : Kept b .none writes92 m (b.exec (.int15 0x2401) s).2 :=
    ⟨h.command, h.writes92, h.knows.int15 0x2401⟩
  refine (a20Test_obeys hkept.knows).bind fun live m₁ s₁ htest => ?_
  have h₁ := htest.kept hkept
  cases live with
  | true => exact Tried.found h₁ (htest.isOpen rfl)
  | false => exact a20Kbc_obeys hn h₁ .a20Bios

/-- Each method that the chain of jumps comes to is within the rules. -/
theorem jump_obeys (hn : b.InTime mayStop n) (h : Kept b .none writes92 m s) (label : A20Ptr) :
    (jump n label).Obeys b.exec b.watch mayStop (TriedAt b (writes92 + 1)) m s := by
  cases label with
  | a20Bios => exact a20Bios_obeys hn h
  | a20Kbc => exact a20Kbc_obeys hn h .a20Kbc
  | a20Fast => exact a20Fast_obeys h

/-- Each round that fails writes to the port 92h once. -/
theorem tries_obeys (hn : b.InTime mayStop n) (k : Nat) (label : A20Ptr)
    (h : Kept b .none writes92 m s) (hk : k = 0 → b.StaysOpen → m.wasOpen = false) :
    (tries n k label).Obeys b.exec b.watch mayStop (TriedAt b (writes92 + k)) m s := by
  induction k generalizing label m s writes92 with
  | zero =>
    exact Tried.mk h.command h.knows nofun fun _ => ⟨h.writes92, hk rfl⟩
  | succ k ih =>
    refine (jump_obeys hn h label).bind fun r m s htried => ?_
    obtain ⟨live, ptr⟩ := r
    cases live with
    | true => exact Tried.mk htried.command htried.knows htried.isOpen nofun
    | false =>
      obtain ⟨hwrites, hwas⟩ := htried.failed rfl
      rw [← Nat.add_assoc, Nat.add_right_comm]
      exact ih .a20Bios ⟨htried.command, hwrites, htried.knows⟩ fun _ => hwas

/-- What `enable_a20` keeps, and how it ends. -/
theorem enableA20_obeys (hn : b.InTime mayStop n) (ptr : A20Ptr) (s : State H) :
    (enableA20 n ptr).Obeys b.exec b.watch mayStop (TriedAt b 255) .nothing s := by
  have hkept : Kept b .none 0 .nothing s := ⟨rfl, rfl, fun _ hwas => Bool.noConfusion hwas⟩
  refine (a20Test_obeys hkept.knows).bind fun live m₁ s₁ htest => ?_
  have h₁ := htest.kept hkept
  cases live with
  | true => exact Tried.found h₁ (htest.isOpen rfl)
  | false =>
    have htries := @tries_obeys H b s₁ mayStop m₁ n 0 hn 255 ptr h₁
      fun hzero => absurd hzero (by decide)
    rwa [Nat.zero_add] at htries

/-! ## The log -/

/-- An event writes to the port 92h. -/
def fastWrite (e : Event Op.Ret (State H)) : Bool :=
  match e.op with
  | .outb port _ => port == 0x92
  | _ => false

/-- An event is an `io_delay` in front of which the gate is open. -/
def openDelay (b : Board H) (e : Event Op.Ret (State H)) : Bool :=
  match e.op with
  | .ioDelay => b.a20 e.before.hw
  | _ => false

/-- What the monitor learns from an event. -/
theorem tally_of_watch {e : Event Op.Ret (State H)} (h : b.watch m e = some m') :
    m'.writes92 = m.writes92 + (fastWrite e).toNat ∧
      m'.wasOpen = (m.wasOpen || openDelay b e) := by
  obtain ⟨op, res, before, after⟩ := e
  cases op with
  | loadTest | storeTest | loadHma =>
    cases h
    simp [fastWrite, openDelay]
  | ioDelay =>
    cases h
    simp [fastWrite, openDelay]
  | inb port =>
    simp only [Board.watch, Seen.inb] at h
    split_ifs at h <;> cases h <;> simp [fastWrite, openDelay]
  | outb port al =>
    simp only [Board.watch, Seen.outb] at h
    split_ifs at h with hport <;> cases h <;> simp [fastWrite, openDelay, hport]
  | int15 ax =>
    simp only [Board.watch] at h
    split_ifs at h
    cases h
    simp [fastWrite, openDelay]

/-- What the monitor learns from a log. -/
theorem tally_of_foldlM {log : List (Event Op.Ret (State H))}
    (h : log.foldlM b.watch m = some m') :
    m'.writes92 = m.writes92 + log.countP fastWrite ∧
      m'.wasOpen = (m.wasOpen || log.any (openDelay b)) := by
  induction log generalizing m with
  | nil =>
    cases h
    simp
  | cons e log ih =>
    rw [List.foldlM_cons] at h
    obtain ⟨m₁, hwatch, hlog⟩ := Option.bind_eq_some_iff.mp h
    obtain ⟨hwrites, hwas⟩ := tally_of_watch hwatch
    obtain ⟨hwrites', hwas'⟩ := ih hlog
    rw [hwrites', hwas', hwrites, hwas, List.countP_cons, List.any_cons, Bool.or_assoc]
    refine ⟨?_, rfl⟩
    cases fastWrite e <;> simp only [Bool.toNat_false, Bool.toNat_true, if_true, if_false,
      Bool.false_eq_true]
    all_goals omega

/-! ## The runs -/

/-- Whatever the hardware does, the keyboard controller gets its bytes in order and only when it is
ready, the other bits of the port 92h stay and its bit 0 is low, and when `enable_a20` comes back then
no command is left half done. It returns only with the gate open. -/
theorem enable_a20_returns_open (b : Board H) (n : Nat) (ptr : A20Ptr) (s : State H) :
    ∃ m, ((enableA20 n ptr).run b.exec s).1.foldlM b.watch .nothing = some m ∧
      ∀ live ptr' s', ((enableA20 n ptr).run b.exec s).2 = some ((live, ptr'), s') →
        m.command = .none ∧ (live = true → b.Open s') := by
  obtain ⟨m, hlog, hresult⟩ := (enableA20_obeys (Or.inl trivial : b.InTime True n) ptr s).log
  refine ⟨m, hlog, fun live ptr' s' hrun => ?_⟩
  rw [hrun] at hresult
  exact ⟨hresult.command, hresult.isOpen⟩

/-- Where the keyboard controller gets ready, and nothing closes the gate, `enable_a20` ends. It
returns with the gate open, or it gives up behind 255 attempts with the port 92h, and then the gate
was closed in front of each `io_delay`. -/
theorem enable_a20_ends {busy : H → Nat} {bound : Nat} (hready : b.GetsReady busy bound)
    (hkeeps : b.StaysOpen) (hn : bound < n) (ptr : A20Ptr) (s : State H) :
    ∃ live ptr' s', ((enableA20 n ptr).run b.exec s).2 = some ((live, ptr'), s') ∧
      (live = true → b.Open s') ∧
      (live = false → ((enableA20 n ptr).run b.exec s).1.countP fastWrite = 255 ∧
        ∀ e ∈ ((enableA20 n ptr).run b.exec s).1, e.op = .ioDelay → b.a20 e.before.hw = false) := by
  have hin : b.InTime False n := Or.inr ⟨busy, bound, hready, hn⟩
  obtain ⟨m, ⟨live, ptr'⟩, s', hlog, hrun, htried⟩ := (enableA20_obeys hin ptr s).ends
  obtain ⟨hwrites, hwas⟩ := tally_of_foldlM hlog
  refine ⟨live, ptr', s', hrun, htried.isOpen, fun hfalse => ?_⟩
  obtain ⟨hcount, hclosed⟩ := htried.failed hfalse
  refine ⟨by rw [← hcount, hwrites]; exact (Nat.zero_add _).symm, fun e he hop => ?_⟩
  rw [hclosed hkeeps] at hwas
  have hany := List.any_eq_false.mp hwas.symm e he
  simpa [openDelay, hop] using hany

/-- A board whose keyboard controller opens the gate. -/
def sampleBoard : Board Bool where
  a20 := id
  ioDelay := id
  inb _ h := (0, h)
  outb port al h := h || (port == 0x60 && al == 0xdf)
  int15 _ s := s
  testAddr := 0x7000
  testAddr_lt := by decide

/-- A machine whose gate is open from the first. -/
theorem enable_a20_ends_sample : ∃ live ptr' s',
    ((enableA20 1 .a20Bios).run sampleBoard.exec ⟨false, fun _ => 0⟩).2 = some ((live, ptr'), s') ∧
      (live = true → sampleBoard.Open s') := by
  have hready : sampleBoard.GetsReady (fun _ => 0) 0 :=
    ⟨fun _ => le_rfl, fun _ => le_rfl, fun _ h => (h UInt8.zero_and).elim,
      fun _ h => (h UInt8.zero_and).elim⟩
  have hkeeps : sampleBoard.StaysOpen :=
    ⟨fun _ h => h, fun _ _ h => h, fun _ _ _ h => Bool.or_eq_true_iff.mpr (Or.inl h),
      fun _ _ h => h⟩
  obtain ⟨live, ptr', s', hrun, hopen, -⟩ :=
    enable_a20_ends hready hkeeps Nat.one_pos .a20Bios ⟨false, fun _ => 0⟩
  exact ⟨live, ptr', s', hrun, hopen⟩

end Liigboot.A20
