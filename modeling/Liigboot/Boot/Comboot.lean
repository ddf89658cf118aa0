import Liigboot.Lib.Window
import Mathlib.Logic.Relation

/-!
# The interface for programs

`comboot_setup_api` puts handlers behind the interrupts of DOS, with a generated jump for each one
that is not there, and saves the vectors that it replaces. `comboot_cleanup_api` puts the saved ones
back. A program reads its keys one byte at a time.
-/

namespace Liigboot.Comboot

/-! ## The source -/

/-- The addresses that the linker gives out. Nothing of it is among the interrupt vectors. -/
structure Symbols where
  combootReturn : UInt16
  combootInt21 : UInt16
  combootInt22 : UInt16
  combootInt28 : UInt16
  combootInt29 : UInt16
  combootIret : UInt16
  combootBogus : UInt16
  dosErrTramp : Nat
  dosSaveVectors : Nat
  tramp_ge : 0x400 ≤ dosErrTramp
  tramp_le : dosErrTramp + 132 ≤ 0x10000
  save_ge : 0x400 ≤ dosSaveVectors
  save_le : dosSaveVectors + 128 ≤ 0x10000
  apart : dosErrTramp + 132 ≤ dosSaveVectors ∨ dosSaveVectors + 128 ≤ dosErrTramp

/-- `comboot_err`. -/
def Symbols.combootErr (y : Symbols) (x : Nat) : UInt16 :=
  UInt16.ofNat (y.dosErrTramp + 4 * (x - 0x20))

/-- `comboot_vectors`, from INT 20h on. -/
def Symbols.combootVectors (y : Symbols) : List UInt16 :=
  [y.combootReturn, y.combootInt21, y.combootInt22, y.combootErr 0x23, y.combootErr 0x24,
    y.combootErr 0x25, y.combootErr 0x26, y.combootErr 0x27, y.combootInt28, y.combootInt29,
    y.combootErr 0x2a, y.combootErr 0x2b, y.combootErr 0x2c, y.combootIret, y.combootErr 0x2e,
    y.combootIret, y.combootErr 0x30, y.combootErr 0x31, y.combootErr 0x32, y.combootIret,
    y.combootErr 0x34, y.combootErr 0x35, y.combootErr 0x36, y.combootErr 0x37, y.combootErr 0x38,
    y.combootErr 0x39, y.combootErr 0x3a, y.combootErr 0x3b, y.combootErr 0x3c, y.combootErr 0x3d,
    y.combootErr 0x3e, y.combootErr 0x3f]

/-- The first loop of `comboot_setup_api`, with AH as it counts up. It ends with DI. -/
def trampolines : Nat → UInt8 → Nat → Memory → Memory × Nat
  | 0, _, di, mem => (mem, di)
  | cx + 1, ah, di, mem =>
    trampolines cx (ah + 1) (di + 4) (repMovsbFrom mem [0x6a, ah, 0xeb, 0x02] di)

/-- The second loop of `comboot_setup_api`, with the rest of the table. -/
def exchange : List UInt16 → Nat → Nat → Memory → Memory
  | [], _, _, mem => mem
  | v :: vs, si, di, mem =>
    exchange vs (si + 4) (di + 4) (repMovsbFrom (repMovsb mem 4 si di) (leBytes v.toNat 4) si)

/-- The distance of a jump whose last two bytes are at DI, in 16 bits. -/
def distance (target : UInt16) (di : Nat) : Nat := (target.toNat + 2 ^ 17 - 2 - di) % 2 ^ 16

/-- `comboot_setup_api`. -/
def combootSetupApi (y : Symbols) (mem : Memory) : Memory :=
  let (mem, di) := trampolines 32 0x20 y.dosErrTramp mem
  let di := di - 1
  -- the last one jumps to comboot_bogus
  let mem := put mem (di - 1) 0xe9
  let mem := repMovsbFrom mem (leBytes (distance y.combootBogus di) 2) di
  exchange y.combootVectors (4 * 0x20) y.dosSaveVectors mem

/-- `comboot_cleanup_api`. -/
def combootCleanupApi (y : Symbols) (mem : Memory) : Memory :=
  repMovsb mem (4 * 0x20) y.dosSaveVectors (4 * 0x20)

/-! ### Images -/

/-- `cmd_line_here`. -/
def cmdLineHere : Nat := 0xf800

/-- The loop that copies the command line behind the blank, with CX, SI and DI. -/
def copyCmdline : Nat → Nat → Nat → Memory → Memory × Nat
  | 0, _, di, mem => (mem, di)
  | cx + 1, si, di, mem =>
    if mem si = 0 then (mem, di) else copyCmdline cx (si + 1) (di + 1) (put mem di (mem si))

/-- What `is_comboot_image` puts in front of a program, in `comboot_seg`, with what INT 12h says. -/
def makePsp (kilobytes : UInt16) (mem : Memory) : Memory :=
  let mem := repStosb mem 0 (4 * 64) 0
  let mem := repMovsbFrom mem (leBytes 0x20cd 2) 0
  let mem := repMovsbFrom mem (leBytes (kilobytes <<< 6).toNat 2) 2
  let mem := put mem 0x81 0x20
  let (mem, di) := copyCmdline 125 cmdLineHere 0x82 mem
  let mem := put mem di 0x0d
  put mem 0x80 (UInt8.ofNat (di + 1 - 0x82))

/-- What happens after the vectors have been set up first: an image of a program is started, with
`comboot_setup_api` once more, or stores something. -/
inductive Event
  | image
  | stores (cells : List (Nat × UInt8))

def Event.isImage : Event → Bool
  | .image => true
  | .stores _ => false

def Event.apply (y : Symbols) (mem : Memory) : Event → Memory
  | .image => combootSetupApi y mem
  | .stores cells => putAll mem cells

/-- The memory after `common_init` and some programs. -/
def session (y : Symbols) (mem : Memory) (events : List Event) : Memory :=
  events.foldl (Event.apply y) (combootSetupApi y mem)

/-! ### Keys -/

/-- `APIKeyFlag`, `APIKeyWait` and the keys that `getchar` would return, as AL and AH. -/
structure Keys where
  apiKeyFlag : UInt8
  apiKeyWait : UInt8
  queue : List (UInt8 × UInt8)

/-- `comboot_getchar`, if it does not have to wait. -/
def combootGetchar (s : Keys) : Option (UInt8 × Keys) :=
  if s.apiKeyFlag ≠ 0 then some (s.apiKeyWait, { s with apiKeyFlag := s.apiKeyFlag - 1 })
  else match s.queue with
    | [] => none
    | (al, ah) :: queue =>
      -- a function key
      if al = 0 then some (al, ⟨s.apiKeyFlag + 1, ah, queue⟩)
      else some (al, { s with queue := queue })

/-- `comboot_checkkey`. -/
def combootCheckkey (s : Keys) : UInt8 :=
  let zf : UInt8 := if s.apiKeyFlag ≠ 0 then 0 else if s.queue = [] then 1 else 0
  zf - 1

/-- A key is pressed, or a program asks for one. -/
inductive KeyEvent
  | press (al ah : UInt8)
  | getchar

/-- The keys after an event, and what a program gets. A program that has to wait asks later. -/
def KeyEvent.apply (s : Keys) : KeyEvent → Keys × List UInt8
  | .press al ah => ({ s with queue := s.queue ++ [(al, ah)] }, [])
  | .getchar =>
    match combootGetchar s with
    | none => (s, [])
    | some (b, s') => (s', [b])

/-- The keys after some events, and all that the programs got. -/
def runKeys : Keys → List KeyEvent → Keys × List UInt8
  | s, [] => (s, [])
  | s, e :: es =>
    let rest := runKeys (e.apply s).1 es
    (rest.1, (e.apply s).2 ++ rest.2)

/-! ### Interrupts -/

/-- CS, IP and what was pushed last. -/
structure Cpu where
  cs : Nat
  ip : Nat
  stack : List UInt16

/-- An interrupt, at an instruction. -/
def interrupt (mem : Memory) (n : Nat) (flags cs ip : UInt16) : Cpu :=
  ⟨memLe mem (4 * n + 2) 2, memLe mem (4 * n) 2, [ip, cs, flags]⟩

/-- A byte with its sign, as a word. -/
def signExtend (b : UInt8) : Nat := if b.toNat < 0x80 then b.toNat else b.toNat + 0xff00

/-- The instructions of the trampolines: `push` of a byte, and jumps. -/
def step (mem : Memory) (s : Cpu) : Option Cpu :=
  let code := mem.from (s.cs * 16 + s.ip)
  if code 0 = 0x6a then
    some ⟨s.cs, (s.ip + 2) % 2 ^ 16, UInt16.ofNat (signExtend (code 1)) :: s.stack⟩
  else if code 0 = 0xeb then some ⟨s.cs, (s.ip + 2 + signExtend (code 1)) % 2 ^ 16, s.stack⟩
  else if code 0 = 0xe9 then some ⟨s.cs, (s.ip + 3 + memLe code 1 2) % 2 ^ 16, s.stack⟩
  else none

/-- The code runs from one state to another. -/
def Reaches (mem : Memory) : Cpu → Cpu → Prop :=
  Relation.ReflTransGen fun s t => step mem s = some t

/-- `writehex_common`, with CX and EAX. -/
def writehexCommon : Nat → BitVec 32 → List Char
  | 0, _ => []
  | cx + 1, eax =>
    let eax := eax.rotateLeft 4
    let al := eax.toNat % 16
    (if al < 10 then Char.ofNat ('0'.toNat + al) else Char.ofNat (al - 10 + 'A'.toNat)) ::
      writehexCommon cx eax

/-- `writehex2`. -/
def writehex2 (eax : BitVec 32) : List Char := writehexCommon 2 (eax.rotateLeft 24)

/-- `writehex4`. -/
def writehex4 (eax : BitVec 32) : List Char := writehexCommon 4 (eax.rotateLeft 16)

/-- `writehex8`. -/
def writehex8 (eax : BitVec 32) : List Char := writehexCommon 8 eax

/-- `comboot_bogus`: what it writes behind `KernelName`, with EAX. -/
def combootBogus (kernelName : List Char) (eax : BitVec 32) (s : Cpu) : Option (List Char) :=
  match s.stack with
  | n :: ip :: cs :: _ =>
    let edi := BitVec.ofNat 32 (cs.toNat * 2 ^ 16 + ip.toNat)
    -- `xchg ax,dx` puts the number in AX, and later what AX was
    let named := BitVec.ofNat 32 (eax.toNat / 2 ^ 16 * 2 ^ 16 + n.toNat)
    some (kernelName ++ ": attempted DOS system call INT ".toList ++ writehex2 named ++ [' '] ++
      writehex4 eax ++ [' '] ++ writehex8 edi ++ ['\r', '\n'])
  | _ => none

/-! ## What is set up -/

variable {y : Symbols} {mem mem' : Memory}

/-- Each trampoline pushes the number of its vector and jumps to the next but one instruction;
nothing else is stored. -/
theorem trampolines_spec (n : Nat) (ah : UInt8) (di : Nat) (mem : Memory) :
    (trampolines n ah di mem).2 = di + 4 * n ∧
      (∀ k < n, Holds (trampolines n ah di mem).1 (di + 4 * k)
        [0x6a, ah + UInt8.ofNat k, 0xeb, 0x02]) ∧
      ∀ c, c < di ∨ di + 4 * n ≤ c → (trampolines n ah di mem).1 c = mem c := by
  induction n generalizing ah di mem with
  | zero => exact ⟨rfl, fun k hk => absurd hk (Nat.not_lt_zero k), fun c _ => rfl⟩
  | succ n ih =>
    rw [trampolines]
    obtain ⟨hdi, hheld, hframe⟩ := ih (ah + 1) (di + 4) (repMovsbFrom mem [0x6a, ah, 0xeb, 0x02] di)
    refine ⟨by omega, fun k hk => ?_, fun c hc => ?_⟩
    · cases k with
      | zero =>
        have hfirst := @repMovsbFrom_holds _ mem [0x6a, ah, 0xeb, 0x02] di
        rw [show ah + UInt8.ofNat 0 = ah from UInt8.add_zero ah]
        exact hfirst.congr fun c _ hlt => hframe c (Or.inl hlt)
      | succ k =>
        have hk' := hheld k (by omega)
        have hnumber : ah + 1 + UInt8.ofNat k = ah + UInt8.ofNat (k + 1) := by
          rw [UInt8.ofNat_add, UInt8.add_assoc, UInt8.add_comm (UInt8.ofNat k)]
          rfl
        rwa [hnumber, show di + 4 + 4 * k = di + 4 * (k + 1) by omega] at hk'
    · rw [hframe c (by omega)]
      rcases hc with hlt | hge
      · exact repMovsbFrom_of_lt hlt
      · exact repMovsbFrom_of_ge (show di + 4 ≤ c by omega)

/-- Each of two tables has the entries of the other behind the exchange, and nothing else is
changed. -/
theorem exchange_spec (vs : List UInt16) {si di : Nat} (mem : Memory)
    (hapart : si + 4 * vs.length ≤ di ∨ di + 4 * vs.length ≤ si) :
    (∀ i < 4 * vs.length, exchange vs si di mem (di + i) = mem (si + i)) ∧
      Holds (exchange vs si di mem) si (vs.flatMap fun v => leBytes v.toNat 4) ∧
      ∀ c, c < si ∨ si + 4 * vs.length ≤ c → c < di ∨ di + 4 * vs.length ≤ c →
        exchange vs si di mem c = mem c := by
  induction vs generalizing si di mem with
  | nil => exact ⟨fun i hi => absurd hi (Nat.not_lt_zero i), holds_nil _ _, fun c _ _ => rfl⟩
  | cons v vs ih =>
    rw [List.length_cons] at hapart ⊢
    obtain ⟨hsaved, hheld, hframe⟩ := @ih (si + 4) (di + 4)
      (repMovsbFrom (repMovsb mem 4 si di) (leBytes v.toNat 4) si) (by omega)
    have hlength := length_leBytes v.toNat 4
    -- what one round leaves, outside of the vector itself
    have hround (c : Nat) (hc : c < si ∨ si + 4 ≤ c) :
        repMovsbFrom (repMovsb mem 4 si di) (leBytes v.toNat 4) si c =
          if di ≤ c ∧ c < di + 4 then mem (si + (c - di)) else mem c := by
      rw [← repMovsb_eq (by omega)]
      rcases hc with hlt | hge
      · exact repMovsbFrom_of_lt hlt
      · exact repMovsbFrom_of_ge (by omega)
    rw [exchange, List.flatMap_cons, holds_append]
    refine ⟨fun i hi => ?_, ⟨?_, ?_⟩, fun c hsi hdi => ?_⟩
    · by_cases hfirst : i < 4
      · rw [hframe _ (by omega) (by omega), hround _ (by omega), if_pos (by omega),
          Nat.add_sub_cancel_left]
      · have hnext := hsaved (i - 4) (by omega)
        rw [hround _ (by omega), if_neg (by omega)] at hnext
        rwa [show di + 4 + (i - 4) = di + i by omega,
          show si + 4 + (i - 4) = si + i by omega] at hnext
    · have hfirst := @repMovsbFrom_holds _ (repMovsb mem 4 si di) (leBytes v.toNat 4) si
      exact hfirst.congr fun c hge hlt => hframe c (by omega) (by omega)
    · rwa [hlength]
    · rw [hframe c (by omega) (by omega), hround c (by omega), if_neg (by omega)]

/-- The vectors of the loader, as bytes. -/
def Symbols.own (y : Symbols) : List UInt8 := y.combootVectors.flatMap fun v => leBytes v.toNat 4

/-- There is a vector for each interrupt from 20h to 3Fh. -/
theorem Symbols.length_combootVectors (y : Symbols) : y.combootVectors.length = 32 := rfl

/-- They take 128 bytes. -/
theorem Symbols.length_own (y : Symbols) : y.own.length = 128 := by
  rw [own, List.length_flatMap]
  simp [combootVectors]

/-- The vectors of the loader, and the trampolines that some of them lead to. -/
structure Serving (y : Symbols) (mem' : Memory) : Prop where
  vectors : Holds mem' 0x80 y.own
  tramps : ∀ k < 31, Holds mem' (y.dosErrTramp + 4 * k) [0x6a, 0x20 + UInt8.ofNat k, 0xeb, 0x02]
  last : Holds mem' (y.dosErrTramp + 4 * 31)
    ([0x6a, 0x3f, 0xe9] ++ leBytes (distance y.combootBogus (y.dosErrTramp + 127)) 2)

/-- What `comboot_setup_api` does to memory. -/
structure SetUp (y : Symbols) (mem mem' : Memory) : Prop extends Serving y mem' where
  saved : ∀ i < 128, mem' (y.dosSaveVectors + i) = mem (0x80 + i)
  frame : ∀ c, c < 0x80 ∨ 0x100 ≤ c → c < y.dosErrTramp ∨ y.dosErrTramp + 132 ≤ c →
    c < y.dosSaveVectors ∨ y.dosSaveVectors + 128 ≤ c → mem' c = mem c

/-- The set-up saves the vectors that were there and installs the ones of the loader. -/
theorem combootSetupApi_setUp (y : Symbols) (mem : Memory) :
    SetUp y mem (combootSetupApi y mem) := by
  have hge := y.tramp_ge
  have sge := y.save_ge
  have hapart := y.apart
  have hlength := y.length_combootVectors
  obtain ⟨hdi, hheld, hframe⟩ := trampolines_spec 32 0x20 y.dosErrTramp mem
  rw [combootSetupApi]
  generalize hr : trampolines 32 0x20 y.dosErrTramp mem = r at hdi hheld hframe
  obtain ⟨tramp, di⟩ := r
  change di = y.dosErrTramp + 128 at hdi
  simp only at hheld hframe
  simp only [hdi, show y.dosErrTramp + 128 - 1 = y.dosErrTramp + 127 by omega,
    show y.dosErrTramp + 127 - 1 = y.dosErrTramp + 126 by omega]
  -- the last trampoline, which is longer than its place
  have hword := length_leBytes (distance y.combootBogus (y.dosErrTramp + 127)) 2
  have hpatch (c : Nat) (hc : c < y.dosErrTramp + 126 ∨ y.dosErrTramp + 132 ≤ c) :
      repMovsbFrom (put tramp (y.dosErrTramp + 126) 0xe9)
        (leBytes (distance y.combootBogus (y.dosErrTramp + 127)) 2) (y.dosErrTramp + 127) c =
          tramp c := by
    rcases hc with hlt | hgt
    · rw [repMovsbFrom_of_lt (by omega), put_of_ne _ (by omega)]
    · rw [repMovsbFrom_of_ge (by omega), put_of_ne _ (by omega)]
  have hlast : Holds (repMovsbFrom (put tramp (y.dosErrTramp + 126) 0xe9)
      (leBytes (distance y.combootBogus (y.dosErrTramp + 127)) 2) (y.dosErrTramp + 127))
      (y.dosErrTramp + 4 * 31)
      ([0x6a, 0x3f, 0xe9] ++ leBytes (distance y.combootBogus (y.dosErrTramp + 127)) 2) := by
    have hold := hheld 31 (by decide)
    rw [holds_append]
    refine ⟨?_, @repMovsbFrom_holds _ _ _ _⟩
    simp only [holds_cons] at hold ⊢
    refine ⟨?_, ?_, ?_, holds_nil _ _⟩
    · rw [hpatch _ (by omega)]
      exact hold.1
    · rw [hpatch _ (by omega)]
      exact hold.2.1
    · rw [repMovsbFrom_of_lt (by omega), show y.dosErrTramp + 4 * 31 + 1 + 1 = y.dosErrTramp + 126
        by omega, put_self]
  generalize repMovsbFrom (put tramp (y.dosErrTramp + 126) 0xe9)
    (leBytes (distance y.combootBogus (y.dosErrTramp + 127)) 2) (y.dosErrTramp + 127) = patched
    at hpatch hlast
  -- the vectors
  obtain ⟨hsaved, hown, hrest⟩ := @exchange_spec y.combootVectors (4 * 0x20) y.dosSaveVectors
    patched (by omega)
  rw [hlength] at hsaved hrest
  refine ⟨⟨hown, ?_, ?_⟩, ?_, ?_⟩
  · intro k hk
    refine (hheld k (by omega)).congr fun c hc hlt => ?_
    change c < y.dosErrTramp + 4 * k + 4 at hlt
    rw [hrest c (by omega) (by omega), hpatch c (by omega)]
  · refine hlast.congr fun c hc hlt => ?_
    rw [List.length_append, hword] at hlt
    change c < y.dosErrTramp + 4 * 31 + 5 at hlt
    exact hrest c (by omega) (by omega)
  · intro i hi
    rw [hsaved i (by omega), hpatch _ (by omega), hframe _ (by omega)]
  · intro c hvector htramp hsave
    rw [hrest c (by omega) (by omega), hpatch c (by omega), hframe c (by omega)]

/-! ## Interrupts that are not there -/

/-- A step at a `push` of a byte. -/
theorem step_push {s : Cpu} {b : UInt8} (h : Holds mem (s.cs * 16 + s.ip) [0x6a, b])
    (hip : s.ip + 2 < 2 ^ 16) :
    step mem s = some ⟨s.cs, s.ip + 2, UInt16.ofNat (signExtend b) :: s.stack⟩ := by
  simp only [holds_cons] at h
  simp only [step, Memory.from, Nat.add_zero, h.1, if_true, h.2.1, Nat.mod_eq_of_lt hip]

/-- A step at a short jump. -/
theorem step_short {s : Cpu} {b : UInt8} (h : Holds mem (s.cs * 16 + s.ip) [0xeb, b]) :
    step mem s = some ⟨s.cs, (s.ip + 2 + signExtend b) % 2 ^ 16, s.stack⟩ := by
  simp only [holds_cons] at h
  have hne : ¬(0xeb : UInt8) = 0x6a := by decide
  simp only [step, Memory.from, Nat.add_zero, h.1, if_true, if_neg hne, h.2.1]

/-- A step at a near jump. -/
theorem step_near {s : Cpu} {v : Nat} (h : Holds mem (s.cs * 16 + s.ip) (0xe9 :: leBytes v 2)) :
    step mem s = some ⟨s.cs, (s.ip + 3 + v) % 2 ^ 16, s.stack⟩ := by
  rw [holds_cons] at h
  have hne : ¬(0xe9 : UInt8) = 0x6a := by decide
  have hne' : ¬(0xe9 : UInt8) = 0xeb := by decide
  have hword : memLe (mem.from (s.cs * 16 + s.ip)) 1 2 = v % 2 ^ 16 := by
    rw [memLe_from, memLe_of_holds h.2]
    rfl
  simp only [step, hword]
  simp only [Memory.from, Nat.add_zero, h.1, if_true, if_neg hne, if_neg hne']
  rw [Nat.add_mod_mod]

/-- The jumps of the trampolines lead from one to the next, and from the last one out. -/
theorem reaches_bogus (h : Serving y mem') (st : List UInt16) (d : Nat) {k : Nat}
    (hk : k + d = 31) :
    Reaches mem' ⟨0, y.dosErrTramp + 4 * k + 2, st⟩ ⟨0, y.combootBogus.toNat, st⟩ := by
  have hle := y.tramp_le
  have hbogus := y.combootBogus.toNat_lt
  induction d generalizing k with
  | zero =>
    obtain rfl : k = 31 := hk
    have hlast := h.last
    rw [holds_append, List.length_cons, List.length_cons, List.length_singleton] at hlast
    simp only [holds_cons] at hlast
    have hjump := @step_near mem' ⟨0, y.dosErrTramp + 4 * 31 + 2, st⟩
      (distance y.combootBogus (y.dosErrTramp + 127)) (by
        rw [holds_cons, Nat.zero_mul, Nat.zero_add]
        exact ⟨hlast.1.2.2.1, hlast.2⟩)
    refine Relation.ReflTransGen.single (hjump.trans ?_)
    simp only [distance, Option.some.injEq, Cpu.mk.injEq, true_and, and_true]
    omega
  | succ d ih =>
    have htramp := h.tramps k (by omega)
    simp only [holds_cons] at htramp
    have hjump := @step_short mem' ⟨0, y.dosErrTramp + 4 * k + 2, st⟩ 0x02 (by
      simp only [holds_cons, Nat.zero_mul, Nat.zero_add]
      exact ⟨htramp.2.2.1, htramp.2.2.2.1, holds_nil _ _⟩)
    refine Relation.ReflTransGen.head (hjump.trans ?_) (@ih (k + 1) (by omega))
    have hdistance : signExtend 0x02 = 2 := by decide
    simp only [hdistance, Option.some.injEq, Cpu.mk.injEq, true_and, and_true]
    omega

/-- A trampoline pushes its number and goes on to `comboot_bogus`. -/
theorem trampoline_reaches (h : Serving y mem') (st : List UInt16) {k : Nat} (hk : k < 32) :
    Reaches mem' ⟨0, y.dosErrTramp + 4 * k, st⟩
      ⟨0, y.combootBogus.toNat, UInt16.ofNat (0x20 + k) :: st⟩ := by
  have hle := y.tramp_le
  have hpush : Holds mem' (0 * 16 + (y.dosErrTramp + 4 * k)) [0x6a, 0x20 + UInt8.ofNat k] := by
    rw [Nat.zero_mul, Nat.zero_add]
    by_cases hlast : k = 31
    · subst hlast
      have hbytes := h.last
      rw [holds_append] at hbytes
      simp only [holds_cons] at hbytes ⊢
      exact ⟨hbytes.1.1, hbytes.1.2.1, holds_nil _ _⟩
    · have hbytes := h.tramps k (by omega)
      simp only [holds_cons] at hbytes ⊢
      exact ⟨hbytes.1, hbytes.2.1, holds_nil _ _⟩
  have hnumber : signExtend (0x20 + UInt8.ofNat k) = 0x20 + k := by
    have htoNat : (0x20 + UInt8.ofNat k).toNat = 0x20 + k := by
      rw [UInt8.toNat_add, UInt8.toNat_ofNat']
      change (32 + k % 256) % 256 = 32 + k
      omega
    rw [signExtend, htoNat, if_pos (by omega)]
  have hstep := @step_push mem' ⟨0, y.dosErrTramp + 4 * k, st⟩ _ hpush (by
    change y.dosErrTramp + 4 * k + 2 < 2 ^ 16
    omega)
  rw [hnumber] at hstep
  exact Relation.ReflTransGen.head hstep (reaches_bogus h _ (31 - k) (by omega))

/-- The interrupts that lead to a trampoline. -/
def refused : List Nat :=
  [0x23, 0x24, 0x25, 0x26, 0x27, 0x2a, 0x2b, 0x2c, 0x2e, 0x30, 0x31, 0x32, 0x34, 0x35, 0x36, 0x37,
    0x38, 0x39, 0x3a, 0x3b, 0x3c, 0x3d, 0x3e, 0x3f]

/-- The vector of a call that is refused points to its trampoline. -/
theorem vector_of_refused (y : Symbols) {n : Nat} (hn : n ∈ refused) :
    0x20 ≤ n ∧ n < 0x40 ∧ y.combootVectors[n - 0x20]? = some (y.combootErr n) := by
  revert n
  simp [refused, Symbols.combootVectors]

/-- Each entry of a table of vectors is in its place. -/
theorem holds_vector {vs : List UInt16} {a j : Nat} {v : UInt16}
    (h : Holds mem a (vs.flatMap fun v => leBytes v.toNat 4)) (hv : vs[j]? = some v) :
    Holds mem (a + 4 * j) (leBytes v.toNat 4) := by
  induction vs generalizing a j with
  | nil => cases hv
  | cons w vs ih =>
    rw [List.flatMap_cons, holds_append, length_leBytes] at h
    cases j with
    | zero =>
      obtain rfl := Option.some.inj hv
      exact h.1
    | succ j =>
      have hrest := ih h.2 hv
      rwa [show a + 4 + 4 * j = a + 4 * (j + 1) by omega] at hrest

/-- An interrupt goes where its vector says, in segment 0. -/
theorem interrupt_eq (h : Serving y mem') {n : Nat} {v : UInt16} (hn : 0x20 ≤ n)
    (hv : y.combootVectors[n - 0x20]? = some v) (flags cs ip : UInt16) :
    interrupt mem' n flags cs ip = ⟨0, v.toNat, [ip, cs, flags]⟩ := by
  have hvector := holds_vector h.vectors hv
  have hlt := v.toNat_lt
  have hparts : leBytes v.toNat 4 = leBytes v.toNat 2 ++ leBytes 0 2 := by
    have hdiv : v.toNat / 65536 = 0 := Nat.div_eq_of_lt hlt
    have hdiv' : v.toNat / 16777216 = 0 := Nat.div_eq_of_lt (by omega)
    simp [leBytes, List.range_succ, hdiv, hdiv']
  rw [hparts, holds_append, length_leBytes, show 0x80 + 4 * (n - 0x20) = 4 * n by omega] at hvector
  have hmod : v.toNat % 256 ^ 2 = v.toNat := Nat.mod_eq_of_lt hlt
  rw [interrupt, memLe_of_holds hvector.1, memLe_of_holds hvector.2, hmod]
  rfl

/-! ## The message -/

/-- A digit of a hexadecimal number. -/
def hexDigit (v : Nat) : Char :=
  if v < 10 then Char.ofNat ('0'.toNat + v) else Char.ofNat (v - 10 + 'A'.toNat)

/-- The last digits of a number. -/
def hexDigits (n v : Nat) : List Char :=
  (List.range n).map fun i => hexDigit (v / 16 ^ (n - 1 - i) % 16)

/-- The lower digits of a number do not depend on the higher ones. -/
theorem digit_mod (x : Nat) {m d : Nat} (hm : m < d) : x % 16 ^ d / 16 ^ m % 16 = x / 16 ^ m % 16 := by
  have hpow : 16 ^ d = 16 ^ m * 16 ^ (d - m) := by
    rw [← Nat.pow_add]
    congr 1
    omega
  rw [hpow, Nat.mod_mul_right_div_self]
  exact Nat.mod_mod_of_dvd _ (Nat.pow_dvd_pow 16 (show 1 ≤ d - m by omega))

/-- A number that is turned around by some digits. -/
theorem toNat_rotateLeft (x : BitVec 32) {k : Nat} (hk : k < 8) :
    x.toNat / 16 ^ (8 - k) < 16 ^ k ∧ (x.rotateLeft (4 * k)).toNat =
      x.toNat % 16 ^ (8 - k) * 16 ^ k + x.toNat / 16 ^ (8 - k) := by
  have hpow (j : Nat) : 2 ^ (4 * j) = 16 ^ j := Nat.pow_mul 2 4 j
  have hwidth : 2 ^ 32 = 16 ^ (8 - k) * 16 ^ k := by
    rw [← Nat.pow_add, show 8 - k + k = 8 by omega]
    rfl
  have hlow : x.toNat / 16 ^ (8 - k) < 16 ^ k := by
    rw [Nat.div_lt_iff_lt_mul (Nat.pow_pos (by decide)), Nat.mul_comm, ← hwidth]
    exact x.isLt
  refine ⟨hlow, ?_⟩
  rw [BitVec.toNat_rotateLeft, Nat.mod_eq_of_lt (show 4 * k < 32 by omega),
    show 32 - 4 * k = 4 * (8 - k) by omega, Nat.shiftRight_eq_div_pow, Nat.shiftLeft_eq, hwidth,
    hpow, hpow, Nat.mul_mod_mul_right]
  rw [← hpow k] at hlow ⊢
  rw [← Nat.shiftLeft_eq, Nat.shiftLeft_add_eq_or_of_lt hlow]

/-- A rotation by whole digits moves the digits up. -/
theorem digit_rotateLeft (x : BitVec 32) {k m : Nat} (hk : k < 8) (hm : m < 8 - k) :
    (x.rotateLeft (4 * k)).toNat / 16 ^ (m + k) % 16 = x.toNat / 16 ^ m % 16 := by
  obtain ⟨hlow, hrotate⟩ := toNat_rotateLeft x hk
  rw [hrotate, Nat.add_comm m k, Nat.pow_add, ← Nat.div_div_eq_div_mul, Nat.mul_comm,
    Nat.mul_add_div (Nat.pow_pos (by decide)), Nat.div_eq_of_lt hlow, Nat.add_zero, digit_mod _ hm]

/-- Digits are taken from the top, one rotation after the other. -/
theorem writehexCommon_eq (cx : Nat) (hcx : cx ≤ 8) (x : BitVec 32) :
    writehexCommon cx x = (List.range cx).map fun i => hexDigit (x.toNat / 16 ^ (7 - i) % 16) := by
  induction cx generalizing x with
  | zero => rfl
  | succ cx ih =>
    rw [writehexCommon, List.range_succ_eq_map, List.map_cons, List.map_map, ih (by omega)]
    congr 1
    · have hdigit : (x.rotateLeft 4).toNat % 16 = x.toNat / 16 ^ 7 % 16 := by
        have hrotate := (@toNat_rotateLeft x 1 (by decide)).2
        rw [show 4 = 4 * 1 from rfl, hrotate, Nat.pow_one, Nat.mul_add_mod_self_right]
      rw [hdigit]
      rfl
    · refine List.map_congr_left fun i hi => ?_
      have hlt := List.mem_range.mp hi
      have hnext := @digit_rotateLeft x 1 (6 - i) (by decide) (by omega)
      rw [show 6 - i + 1 = 7 - i by omega] at hnext
      change hexDigit ((x.rotateLeft (4 * 1)).toNat / 16 ^ (7 - i) % 16) = _
      rw [hnext, Function.comp_apply, show 7 - i.succ = 6 - i by omega]

/-- The last digits of a number, which a rotation brings to the top. -/
theorem writehexCommon_rotateLeft {n : Nat} (hn : n < 8) (hpos : 0 < n) (eax : BitVec 32) :
    writehexCommon n (eax.rotateLeft (4 * (8 - n))) = hexDigits n eax.toNat := by
  rw [writehexCommon_eq n hn.le, hexDigits]
  refine List.map_congr_left fun i hi => ?_
  have hlt := List.mem_range.mp hi
  have hdigit := @digit_rotateLeft eax (8 - n) (n - 1 - i) (by omega) (by omega)
  rw [show n - 1 - i + (8 - n) = 7 - i by omega] at hdigit
  rw [hdigit]

/-- `writehex2` writes the lowest two digits. -/
theorem writehex2_eq (eax : BitVec 32) : writehex2 eax = hexDigits 2 eax.toNat :=
  writehexCommon_rotateLeft (by decide) (by decide) eax

/-- `writehex4` writes the lowest four digits. -/
theorem writehex4_eq (eax : BitVec 32) : writehex4 eax = hexDigits 4 eax.toNat :=
  writehexCommon_rotateLeft (by decide) (by decide) eax

/-- `writehex8` writes all eight digits. -/
theorem writehex8_eq (eax : BitVec 32) : writehex8 eax = hexDigits 8 eax.toNat :=
  writehexCommon_eq 8 (by decide) eax

/-- Two digits do not show what is above the low word. -/
theorem hexDigits_two_add (h n : Nat) : hexDigits 2 (h * 2 ^ 16 + n) = hexDigits 2 n := by
  refine List.map_congr_left fun i hi => ?_
  have hlt := List.mem_range.mp hi
  have hmod : (h * 2 ^ 16 + n) % 16 ^ 4 = n % 16 ^ 4 := Nat.mul_add_mod_self_right _ _ _
  rw [← digit_mod _ (show 2 - 1 - i < 4 by omega), hmod, digit_mod _ (by omega)]

/-- A program has left the vectors of the loader and the trampolines alone. -/
def LeftAlone (y : Symbols) (mem mem' : Memory) : Prop :=
  ∀ c, 0x80 ≤ c ∧ c < 0x100 ∨ y.dosErrTramp ≤ c ∧ c < y.dosErrTramp + 132 → mem' c = mem c

/-- The calls are served as long as the code and the vectors are left alone. -/
theorem Serving.congr (h : Serving y mem) (hleft : LeftAlone y mem mem') : Serving y mem' := by
  refine ⟨h.vectors.congr fun c hc hlt => ?_, fun k hk => (h.tramps k hk).congr fun c hc hlt => ?_,
    h.last.congr fun c hc hlt => ?_⟩
  · rw [y.length_own] at hlt
    exact hleft c (Or.inl ⟨hc, hlt⟩)
  · change c < y.dosErrTramp + 4 * k + 4 at hlt
    exact hleft c (Or.inr ⟨by omega, by omega⟩)
  · rw [List.length_append, length_leBytes] at hlt
    change c < y.dosErrTramp + 4 * 31 + 5 at hlt
    exact hleft c (Or.inr ⟨by omega, by omega⟩)

/-- A DOS interrupt that is not there is refused with a message that names it, the function and the
caller, as long as the program has left the vectors and the trampolines alone. -/
theorem refused_call (y : Symbols) {mem mem' : Memory}
    (hleft : LeftAlone y (combootSetupApi y mem) mem') {n : Nat} (hn : n ∈ refused)
    (flags cs ip : UInt16) (kernelName : List Char) (eax : BitVec 32) :
    ∃ s, Reaches mem' (interrupt mem' n flags cs ip) s ∧ s.cs = 0 ∧
      s.ip = y.combootBogus.toNat ∧
      combootBogus kernelName eax s = some (kernelName ++
        ": attempted DOS system call INT ".toList ++ hexDigits 2 n ++ [' '] ++
        hexDigits 4 eax.toNat ++ [' '] ++ hexDigits 8 (cs.toNat * 2 ^ 16 + ip.toNat) ++
        ['\r', '\n']) := by
  have hserving := (combootSetupApi_setUp y mem).toServing.congr hleft
  obtain ⟨hge, hlt, hvector⟩ := vector_of_refused y hn
  have htramp := y.tramp_le
  have hentry : (y.combootErr n).toNat = y.dosErrTramp + 4 * (n - 0x20) := by
    rw [Symbols.combootErr, UInt16.toNat_ofNat']
    exact Nat.mod_eq_of_lt (by omega)
  have hrun := trampoline_reaches hserving [ip, cs, flags] (show n - 0x20 < 32 by omega)
  rw [Nat.add_sub_cancel' hge, ← hentry] at hrun
  refine ⟨_, (interrupt_eq hserving hge hvector flags cs ip).symm ▸ hrun, rfl, rfl, ?_⟩
  have hn' : (UInt16.ofNat n).toNat = n := by
    rw [UInt16.toNat_ofNat']
    exact Nat.mod_eq_of_lt (by omega)
  have heax := eax.isLt
  have hnamed : (BitVec.ofNat 32 (eax.toNat / 2 ^ 16 * 2 ^ 16 + n)).toNat =
      eax.toNat / 2 ^ 16 * 2 ^ 16 + n := by
    rw [BitVec.toNat_ofNat]
    exact Nat.mod_eq_of_lt (by omega)
  have hcs := cs.toNat_lt
  have hip := ip.toNat_lt
  have hedi : (BitVec.ofNat 32 (cs.toNat * 2 ^ 16 + ip.toNat)).toNat =
      cs.toNat * 2 ^ 16 + ip.toNat := by
    rw [BitVec.toNat_ofNat]
    exact Nat.mod_eq_of_lt (by omega)
  simp only [combootBogus, hn', writehex2_eq, writehex4_eq, writehex8_eq, hnamed, hedi,
    hexDigits_two_add]

/-- Addresses as the linker may give them out. -/
def sampleSymbols : Symbols where
  combootReturn := 0x9000
  combootInt21 := 0x9100
  combootInt22 := 0x9200
  combootInt28 := 0x9300
  combootInt29 := 0x9400
  combootIret := 0x9500
  combootBogus := 0x9600
  dosErrTramp := 0xa000
  dosSaveVectors := 0xa100
  tramp_ge := by decide
  tramp_le := by decide
  save_ge := by decide
  save_le := by decide
  apart := by decide

/-- INT 25h of a program called `a.com`. -/
theorem refused_call_sample : ∃ s,
    Reaches (combootSetupApi sampleSymbols fun _ => 0)
      (interrupt (combootSetupApi sampleSymbols fun _ => 0) 0x25 2 0x1000 0x123) s ∧ s.cs = 0 ∧
      s.ip = 0x9600 ∧
      combootBogus "a.com".toList 0x12345#32 s = some ("a.com".toList ++
        ": attempted DOS system call INT ".toList ++ hexDigits 2 0x25 ++ [' '] ++
        hexDigits 4 0x12345 ++ [' '] ++ hexDigits 8 0x10000123 ++ ['\r', '\n']) :=
  refused_call sampleSymbols (fun _ _ => rfl) (by decide) 2 0x1000 0x123 _ _

/-! ## The vectors after all programs -/

/-- The vectors of DOS. -/
def dosVectors (mem : Memory) : List UInt8 := (List.range 128).map fun i => mem (0x80 + i)

/-- The loader has its vectors in place, and others saved. -/
def Saves (y : Symbols) (saved : List UInt8) (mem : Memory) : Prop :=
  dosVectors mem = y.own ∧ (List.range 128).map (fun i => mem (y.dosSaveVectors + i)) = saved

/-- A program leaves alone what the loader needs to put the vectors back. -/
def Event.Polite (y : Symbols) : Event → Prop
  | .image => True
  | .stores cells => ∀ x ∈ cells, ¬(0x80 ≤ x.1 ∧ x.1 < 0x100) ∧
      ¬(y.dosSaveVectors ≤ x.1 ∧ x.1 < y.dosSaveVectors + 128)

/-- The set-up saves the vectors that are there. -/
theorem saves_setup (y : Symbols) (mem : Memory) :
    Saves y (dosVectors mem) (combootSetupApi y mem) := by
  have hsetup := combootSetupApi_setUp y mem
  have hown := hsetup.vectors.map_range
  rw [y.length_own] at hown
  exact ⟨hown, List.map_congr_left fun i hi => hsetup.saved i (List.mem_range.mp hi)⟩

/-- An event of a polite session leaves the saved vectors, but for a start of an image, which
saves those of the loader. -/
theorem Saves.apply {saved : List UInt8} (h : Saves y saved mem) {e : Event} (he : e.Polite y) :
    Saves y (if e.isImage then y.own else saved) (e.apply y mem) := by
  cases e with
  | image =>
    have hnext := saves_setup y mem
    rwa [h.1] at hnext
  | stores cells =>
    have hkept (a : Nat) (ha : 0x80 ≤ a ∧ a < 0x100 ∨
        y.dosSaveVectors ≤ a ∧ a < y.dosSaveVectors + 128) : putAll mem cells a = mem a := by
      refine putAll_of_ne fun x hx heq => ?_
      have hout := he x hx
      rw [heq] at hout
      omega
    refine ⟨Eq.trans (List.map_congr_left fun i hi => ?_) h.1,
      Eq.trans (List.map_congr_left fun i hi => ?_) h.2⟩
    · have hlt := List.mem_range.mp hi
      exact hkept _ (Or.inl ⟨by omega, by omega⟩)
    · have hlt := List.mem_range.mp hi
      exact hkept _ (Or.inr ⟨by omega, by omega⟩)

/-- So does every sequence of them. -/
theorem Saves.run {events : List Event} {saved : List UInt8} (h : Saves y saved mem)
    (hpolite : ∀ e ∈ events, e.Polite y) :
    Saves y (if events.any Event.isImage then y.own else saved)
      (events.foldl (Event.apply y) mem) := by
  induction events generalizing mem saved with
  | nil => exact h
  | cons e events ih =>
    have hstep := h.apply (hpolite e List.mem_cons_self)
    have hrest := ih hstep fun e he => hpolite e (List.mem_cons_of_mem _ he)
    rw [List.foldl_cons, List.any_cons]
    cases he : e.isImage <;> cases hes : events.any Event.isImage <;>
      simpa [he, hes] using hrest

/-- The vectors behind the clean-up are the saved ones. -/
theorem dosVectors_cleanup (y : Symbols) (mem : Memory) :
    dosVectors (combootCleanupApi y mem) =
      (List.range 128).map fun i => mem (y.dosSaveVectors + i) := by
  have hge := y.save_ge
  rw [dosVectors]
  refine List.map_congr_left fun i hi => ?_
  have hlt := List.mem_range.mp hi
  have hback : y.dosSaveVectors + (0x80 + i - 4 * 0x20) = y.dosSaveVectors + i := by omega
  rw [combootCleanupApi, repMovsb_eq (by omega), if_pos (by omega), hback]

/-- The vectors of DOS come back in the end if and only if no program was started, unless they were
those of the loader before: each start saves the loader's own vectors over them. -/
theorem vectors_restored_iff (y : Symbols) (mem : Memory) {events : List Event}
    (hpolite : ∀ e ∈ events, e.Polite y) :
    dosVectors (combootCleanupApi y (session y mem events)) = dosVectors mem ↔
      events.any Event.isImage = false ∨ dosVectors mem = y.own := by
  have hsaved := ((saves_setup y mem).run hpolite).2
  rw [dosVectors_cleanup, session, hsaved]
  cases events.any Event.isImage with
  | false => exact ⟨fun _ => Or.inl rfl, fun _ => rfl⟩
  | true =>
    rw [if_pos rfl]
    constructor
    · intro h
      exact Or.inr h.symm
    · rintro (h | h)
      · cases h
      · exact h.symm

/-- A session with one image. -/
theorem vectors_restored_iff_sample :
    dosVectors (combootCleanupApi sampleSymbols (session sampleSymbols (fun _ => 0) [.image])) =
        dosVectors (fun _ => 0) ↔
      [Event.image].any Event.isImage = false ∨
        dosVectors (fun _ => 0) = sampleSymbols.own :=
  vectors_restored_iff sampleSymbols _ fun e he => by
    obtain rfl := List.mem_singleton.mp he
    trivial

/-! ## The command line of a program -/

/-- A command line is copied up to its end, or as far as there is room. -/
theorem copyCmdline_spec (text : List UInt8) (hnul : 0 ∉ text) (cx : Nat) {si di : Nat}
    (hsource : Holds mem si (text ++ [0])) (hapart : di + cx ≤ si) :
    (copyCmdline cx si di mem).2 = di + (text.take cx).length ∧
      (copyCmdline cx si di mem).1 = repMovsbFrom mem (text.take cx) di := by
  induction cx generalizing text si di mem with
  | zero => exact ⟨rfl, rfl⟩
  | succ cx ih =>
    cases text with
    | nil =>
      rw [List.nil_append, holds_cons] at hsource
      rw [copyCmdline, if_pos hsource.1]
      exact ⟨rfl, rfl⟩
    | cons b text =>
      rw [List.cons_append, holds_cons] at hsource
      have hne : ¬mem si = 0 := by
        rw [hsource.1]
        exact fun h => hnul (h ▸ List.mem_cons_self)
      have hnext : Holds (put mem di b) (si + 1) (text ++ [0]) :=
        hsource.2.congr fun c hc _ => by
          have hne : c ≠ di := by omega
          exact put_of_ne b hne
      have hroom : di + 1 + cx ≤ si + 1 := by omega
      obtain ⟨hdi, hmem⟩ := ih text (fun h => hnul (List.mem_cons_of_mem _ h)) hnext hroom
      rw [copyCmdline, if_neg hne, hsource.1, List.take_succ_cons, List.length_cons, repMovsbFrom]
      exact ⟨by rw [hdi]; omega, hmem⟩

/-- A program finds its command line, cut to what has room, in front of it, and a way back. -/
theorem psp_has_cmdline (kilobytes : UInt16) {text : List UInt8} (hnul : 0 ∉ text)
    (hline : Holds mem cmdLineHere (text ++ [0])) :
    Holds (makePsp kilobytes mem) 0 [0xcd, 0x20] ∧
      Holds (makePsp kilobytes mem) 0x80
        ([UInt8.ofNat ((text.take 125).length + 1), 0x20] ++ text.take 125 ++ [0x0d]) ∧
      ∀ c, 0x100 ≤ c → makePsp kilobytes mem c = mem c := by
  have hlength : (text.take 125).length ≤ 125 := List.length_take_le _ _
  have hword := length_leBytes (kilobytes <<< 6).toNat 2
  -- the first 256 bytes, before the command line comes into them
  have hfront (c : Nat) (hc : 0x100 ≤ c) : put (repMovsbFrom (repMovsbFrom
      (repStosb mem 0 (4 * 64) 0) (leBytes 0x20cd 2) 0) (leBytes (kilobytes <<< 6).toNat 2) 2)
      0x81 0x20 c = mem c := by
    have hne : c ≠ 0x81 := by omega
    rw [put_of_ne _ hne, repMovsbFrom_of_ge (by omega), repMovsbFrom_of_ge (by
      rw [length_leBytes]
      omega), repStosb_eq, if_neg (by omega)]
  have hreturn : Holds (put (repMovsbFrom (repMovsbFrom (repStosb mem 0 (4 * 64) 0)
      (leBytes 0x20cd 2) 0) (leBytes (kilobytes <<< 6).toNat 2) 2) 0x81 0x20) 0 [0xcd, 0x20] := by
    have hcode := @repMovsbFrom_holds _ (repStosb mem 0 (4 * 64) 0) (leBytes 0x20cd 2) 0
    refine hcode.congr fun c _ hlt => ?_
    rw [length_leBytes] at hlt
    have hne : c ≠ 0x81 := by omega
    rw [put_of_ne _ hne, repMovsbFrom_of_lt (by omega)]
  have hblank : put (repMovsbFrom (repMovsbFrom (repStosb mem 0 (4 * 64) 0) (leBytes 0x20cd 2) 0)
      (leBytes (kilobytes <<< 6).toNat 2) 2) 0x81 0x20 0x81 = 0x20 := put_self _ _
  rw [makePsp]
  generalize put (repMovsbFrom (repMovsbFrom (repStosb mem 0 (4 * 64) 0) (leBytes 0x20cd 2) 0)
    (leBytes (kilobytes <<< 6).toNat 2) 2) 0x81 0x20 = front at hfront hreturn hblank
  have hsource : Holds front cmdLineHere (text ++ [0]) :=
    hline.congr fun c hc _ => hfront c (le_trans (by decide) hc)
  obtain ⟨hdi, hmem⟩ := @copyCmdline_spec front text hnul 125 cmdLineHere 0x82 hsource (by decide)
  generalize hr : copyCmdline 125 cmdLineHere 0x82 front = r at hdi hmem
  obtain ⟨copied, di⟩ := r
  simp only at hdi hmem
  subst hdi hmem
  have hcopied := @repMovsbFrom_holds _ front (text.take 125) 0x82
  simp only
  refine ⟨hreturn.congr fun c _ hlt => ?_, ?_, fun c hc => ?_⟩
  · change c < 0 + 2 at hlt
    have hne : c ≠ 0x80 := by omega
    have hne' : c ≠ 0x82 + (text.take 125).length := by omega
    rw [put_of_ne _ hne, put_of_ne _ hne', repMovsbFrom_of_lt (by omega)]
  · rw [show 0x82 + (text.take 125).length + 1 - 0x82 = (text.take 125).length + 1 by omega]
    rw [holds_append, holds_append]
    refine ⟨⟨?_, hcopied.congr fun c hc hlt => ?_⟩, ?_⟩
    · simp only [holds_cons]
      refine ⟨put_self _ _, ?_, holds_nil _ _⟩
      have hne : 0x80 + 1 ≠ 0x80 := by decide
      have hne' : 0x80 + 1 ≠ 0x82 + (text.take 125).length := by omega
      rw [put_of_ne _ hne, put_of_ne _ hne', repMovsbFrom_of_lt (by decide)]
      exact hblank
    · change 0x82 ≤ c at hc
      have hne : c ≠ 0x80 := by omega
      have hne' : c ≠ 0x82 + (text.take 125).length := by omega
      rw [put_of_ne _ hne, put_of_ne _ hne']
    · rw [List.length_append]
      simp only [holds_cons]
      have hne : 0x80 + (2 + (text.take 125).length) ≠ 0x80 := by omega
      refine ⟨?_, holds_nil _ _⟩
      change put _ 0x80 _ (0x80 + (2 + (text.take 125).length)) = 0x0d
      rw [put_of_ne _ hne, ← Nat.add_assoc, put_self]
  · have hne : c ≠ 0x80 := by omega
    have hne' : c ≠ 0x82 + (text.take 125).length := by omega
    rw [put_of_ne _ hne, put_of_ne _ hne', repMovsbFrom_of_ge (by omega), hfront c hc]

theorem psp_has_cmdline_sample :
    let mem : Memory := fun c => if c = 0xf800 then 0x61 else 0
    Holds (makePsp 640 mem) 0 [0xcd, 0x20] ∧
      Holds (makePsp 640 mem) 0x80 ([2, 0x20] ++ [0x61] ++ [0x0d]) ∧
      ∀ c, 0x100 ≤ c → makePsp 640 mem c = mem c :=
  @psp_has_cmdline _ 640 [0x61] (by decide) (by simp [holds_cons, cmdLineHere, holds_nil])

/-! ## Keys in order -/

/-- A key as a DOS program gets it. -/
def dosBytes (key : UInt8 × UInt8) : List UInt8 := if key.1 = 0 then [0, key.2] else [key.1]

/-- What a program will get. -/
def Keys.pending (s : Keys) : List UInt8 :=
  (if s.apiKeyFlag ≠ 0 then [s.apiKeyWait] else []) ++ s.queue.flatMap dosBytes

/-- The keys that are pressed. -/
def pressed : List KeyEvent → List (UInt8 × UInt8)
  | [] => []
  | .press al ah :: es => (al, ah) :: pressed es
  | .getchar :: es => pressed es

/-- A program gets the first byte that is pending, if there is one. -/
theorem combootGetchar_pending {s : Keys} (hflag : s.apiKeyFlag ≤ 1) :
    match combootGetchar s with
    | none => s.pending = []
    | some (b, s') => s'.apiKeyFlag ≤ 1 ∧ s.pending = b :: s'.pending := by
  obtain ⟨flag, wait, queue⟩ := s
  have hcases : flag = 0 ∨ flag = 1 := by
    have hle : flag.toNat ≤ 1 := hflag
    rcases Nat.le_one_iff_eq_zero_or_eq_one.mp hle with h | h
    · exact Or.inl (UInt8.toNat_inj.mp h)
    · exact Or.inr (UInt8.toNat_inj.mp h)
  rcases hcases with rfl | rfl
  · cases queue with
    | nil => rfl
    | cons key queue =>
      obtain ⟨al, ah⟩ := key
      by_cases hal : al = 0
      · subst hal
        exact ⟨show (0 + 1 : UInt8) ≤ 1 by decide, rfl⟩
      · simp [combootGetchar, Keys.pending, dosBytes, hal]
  · exact ⟨show (1 - 1 : UInt8) ≤ 1 by decide, by simp [Keys.pending]⟩

/-- What a program is told and what is left to be told is what was left before and the new keys. -/
theorem KeyEvent.apply_pending {s : Keys} (hflag : s.apiKeyFlag ≤ 1) (e : KeyEvent) :
    (e.apply s).1.apiKeyFlag ≤ 1 ∧
      (e.apply s).2 ++ (e.apply s).1.pending = s.pending ++ (pressed [e]).flatMap dosBytes := by
  cases e with
  | press al ah =>
    refine ⟨hflag, ?_⟩
    simp only [apply, Keys.pending, pressed, List.nil_append, List.flatMap_append,
      List.append_assoc]
    rfl
  | getchar =>
    have hnext := combootGetchar_pending hflag
    rw [apply]
    cases hget : combootGetchar s with
    | none =>
      rw [hget] at hnext
      exact ⟨hflag, by simp [pressed]⟩
    | some r =>
      rw [hget] at hnext
      exact ⟨hnext.1, by simp [pressed, hnext.2]⟩

/-- The keys of the first event come first. -/
theorem pressed_cons (e : KeyEvent) (es : List KeyEvent) :
    pressed (e :: es) = pressed [e] ++ pressed es := by
  cases e <;> rfl

/-- What a program is told in a run and what is left is what was left at first and all keys. -/
theorem runKeys_pending {s : Keys} (hflag : s.apiKeyFlag ≤ 1) (events : List KeyEvent) :
    (runKeys s events).1.apiKeyFlag ≤ 1 ∧ (runKeys s events).2 ++ (runKeys s events).1.pending =
      s.pending ++ (pressed events).flatMap dosBytes := by
  induction events generalizing s with
  | nil => exact ⟨hflag, by simp [runKeys, pressed]⟩
  | cons e es ih =>
    obtain ⟨hstep, hpending⟩ := e.apply_pending hflag
    obtain ⟨hrest, hrun⟩ := ih hstep
    refine ⟨hrest, ?_⟩
    rw [runKeys, List.append_assoc, hrun, ← List.append_assoc, hpending, pressed_cons e es,
      List.flatMap_append, List.append_assoc]

/-- Nothing is left when there is no second byte of a key and the queue is empty. -/
theorem pending_eq_nil_iff (s : Keys) :
    s.pending = [] ↔ s.apiKeyFlag = 0 ∧ s.queue = [] := by
  have hbytes (key : UInt8 × UInt8) : dosBytes key ≠ [] := by
    rw [dosBytes]
    split <;> exact List.cons_ne_nil _ _
  rw [Keys.pending, List.append_eq_nil_iff, List.flatMap_eq_nil_iff]
  constructor
  · rintro ⟨hflag, hqueue⟩
    refine ⟨?_, List.eq_nil_iff_forall_not_mem.mpr fun key hkey => hbytes key (hqueue key hkey)⟩
    by_contra hne
    rw [if_pos hne] at hflag
    cases hflag
  · rintro ⟨hflag, hqueue⟩
    rw [hflag, hqueue]
    exact ⟨rfl, fun key hkey => absurd hkey List.not_mem_nil⟩

/-- What programs get in any order of presses and calls are the bytes of the keys in the order in
which they were pressed, each one once; and a program is told of a key exactly when a byte is left. -/
theorem api_keys_in_order (wait : UInt8) (events : List KeyEvent) :
    let r := runKeys ⟨0, wait, []⟩ events
    r.2 ++ r.1.pending = (pressed events).flatMap dosBytes ∧
      combootCheckkey r.1 = if r.1.pending = [] then 0 else 0xff := by
  intro r
  refine ⟨(runKeys_pending (show (0 : UInt8) ≤ 1 by decide) events).2, ?_⟩
  simp only [combootCheckkey, pending_eq_nil_iff]
  by_cases hflag : r.1.apiKeyFlag = 0
  · by_cases hqueue : r.1.queue = []
    · simp [hflag, hqueue]
    · simp only [hflag, hqueue, ne_eq, not_true_eq_false, if_false, and_false]
      rfl
  · simp only [hflag, ne_eq, not_false_eq_true, if_true, false_and, if_false]
    rfl

end Liigboot.Comboot
