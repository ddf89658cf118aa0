import Liigboot.Adv.Verify
import Liigboot.Lib.Masks

/-!
# Calls from protected mode to real mode

`core_syscall` and `core_cfarcall` save the registers on the protected-mode stack, go to real mode,
let a routine run there, and come back. The routine can go to protected mode itself by `pm_call`,
and a routine there can use the two gates again. The place to come back to is `PMESP` on the way,
and `CallbackSP` on the real-mode stack, which each gate saves and restores. `core_cfarcall` takes
four registers off the stack in the order in which it has put them there.
-/

namespace Liigboot.Pm

open Adv

/-! ## The source -/

/-- The registers, memory with linear addresses, and the variables of the mode switch. `ESP` is `SP`
in real mode, and `SS` is the one of real mode; `EIP` is where the last `ret` or `retf` goes. Flags
that arithmetic leaves are not here: the gates do not read them. -/
structure Cpu where
  eax : UInt32
  ebx : UInt32
  ecx : UInt32
  edx : UInt32
  esi : UInt32
  edi : UInt32
  ebp : UInt32
  esp : Nat
  eflags : UInt32
  eip : UInt32
  ds : UInt16
  es : UInt16
  fs : UInt16
  gs : UInt16
  ss : UInt16
  mem : Mem
  callbackSP : UInt32
  pmesp : Nat
  realModeSP : UInt16
  realModeSS : UInt16

/-- `push`, in protected mode. -/
def Cpu.push (c : Cpu) (v : UInt32) : Cpu :=
  { c with esp := c.esp - 4, mem := putDword c.mem (c.esp - 4) v }

/-- What the next `pop` gets. -/
def Cpu.top (c : Cpu) : UInt32 := dword c.mem c.esp

/-- `ESP` behind a `pop`. -/
def Cpu.drop (c : Cpu) : Cpu := { c with esp := c.esp + 4 }

/-- `ret`, in protected mode. -/
def Cpu.ret (c : Cpu) : Cpu := { c.drop with eip := c.top }

/-- The linear address of the top of the real-mode stack. -/
def Cpu.rmTop (c : Cpu) : Nat := c.ss.toNat * 16 + c.esp

/-- A push of some bytes, in real mode. -/
def Cpu.rmPush (c : Cpu) (bs : List UInt8) : Cpu :=
  let esp := (c.esp + 0x10000 - bs.length) % 0x10000
  { c with esp, mem := repMovsbFrom c.mem bs (c.ss.toNat * 16 + esp) }

/-- A word in memory. -/
def word (mem : Mem) (a : Nat) : UInt16 := UInt16.ofNat (leNat [mem a, mem (a + 1)])

/-- The low word of a dword is replaced. -/
def setLow (v : UInt32) (w : UInt16) : UInt32 := (v &&& 0xffff0000) ||| w.toUInt32

/-- Pushes of several registers, in real mode. -/
def Cpu.rmPushAll (c : Cpu) (items : List (List UInt8)) : Cpu := items.foldl Cpu.rmPush c

/-- `enter_pm`. What `enable_a20` does is below the top of the real-mode stack. -/
def enterPm (c : Cpu) : Cpu :=
  let ebp := UInt32.ofNat c.rmTop
  { c with
    realModeSP := UInt16.ofNat c.esp, realModeSS := c.ss, esp := c.pmesp, ebp, eax := ebp,
    fs := 0, gs := 0 }

/-- `enter_rm`. -/
def enterRm (c : Cpu) : Cpu :=
  { c with
    pmesp := c.esp, esp := c.realModeSP.toNat, ss := c.realModeSS, edx := c.edx &&& 0xffff0000,
    ds := 0, es := 0, fs := 0, gs := 0 }

/-- The two gates. -/
inductive Gate
  | coreSyscall
  | coreCfarcall
  deriving DecidableEq, Repr

/-- The pushes at the beginning of both gates. -/
def saveRegs (c : Cpu) : Cpu :=
  (((((c.push c.eflags).push c.ebx).push c.ebp).push c.esi).push c.edi).push c.callbackSP

/-- The pops at the end of the gates. -/
def popCallbackSP (c : Cpu) : Cpu := { c.drop with callbackSP := c.top }

def popEbx (c : Cpu) : Cpu := { c.drop with ebx := c.top }

def popEbp (c : Cpu) : Cpu := { c.drop with ebp := c.top }

def popEsi (c : Cpu) : Cpu := { c.drop with esi := c.top }

def popEdi (c : Cpu) : Cpu := { c.drop with edi := c.top }

def popfd (c : Cpu) : Cpu := { c.drop with eflags := c.top }

/-- The labels of the gates and of `pm_call` that are written to a stack. -/
structure Labels where
  syscallRmReturn : UInt32
  cfarcallRmReturn : UInt32
  pmCallNext : UInt32

/-- What `core_syscall` writes to the real-mode stack, from a linear address on: the registers of
the caller, the target in `EAX`, the return address, and the flags that are safe, twice. -/
def syscallFrame (sym : Labels) (c : Cpu) (edi : Nat) : Mem :=
  let mem := repMovsd c.mem 11 (dword c.mem (c.esp + 8 * 4)).toNat edi
  let mem := putDword mem (edi + 44) c.eax
  let mem := putDword mem (edi + 48) sym.syscallRmReturn
  let eax := dword mem (edi + 40) &&& 0x200ed7
  let mem := putDword mem (edi + 40) eax
  repMovsbFrom mem (leBytes eax.toNat 2) (edi + 52)

/-- `core_syscall`, up to real mode. -/
def syscallEnter (sym : Labels) (c : Cpu) : Cpu :=
  let c := saveRegs c
  let edi := c.realModeSP.toUInt32 - 54
  let lin : UInt32 := edi + c.realModeSS.toUInt32 <<< 4
  enterRm { c with realModeSP := edi.toUInt16, mem := syscallFrame sym c lin.toNat }

/-- `core_syscall.rm`. -/
def syscallRm (c : Cpu) : Cpu :=
  let ax := UInt16.ofNat (c.esp + (9 * 4 + 4 * 2))
  let top := c.rmTop
  { c with
    callbackSP := setLow c.callbackSP ax,
    gs := word c.mem top, fs := word c.mem (top + 2), es := word c.mem (top + 4),
    ds := word c.mem (top + 6), edi := dword c.mem (top + 8), esi := dword c.mem (top + 12),
    ebp := dword c.mem (top + 16), ebx := dword c.mem (top + 24), edx := dword c.mem (top + 28),
    ecx := dword c.mem (top + 32), eax := dword c.mem (top + 36),
    eflags := dword c.mem (top + 40), eip := dword c.mem (top + 44),
    esp := (c.esp + 48) % 0x10000 }

/-- `core_syscall.rm_return`. `pushad` has the stack pointer that `pushfd` leaves. -/
def syscallRmReturn (c : Cpu) : Cpu :=
  let c := { c with esp := c.callbackSP.toNat % 0x10000 }
  let esp := UInt32.ofNat ((c.esp + 0xfffc) % 0x10000)
  let dwords := [c.eflags, c.eax, c.ecx, c.edx, c.ebx, esp, c.ebp, c.esi, c.edi]
  let words := [c.ds, c.es, c.fs, c.gs]
  enterPm (c.rmPushAll
    (dwords.map (fun v => leBytes v.toNat 4) ++ words.map (fun v => leBytes v.toNat 2)))

/-- The pops at the end of `core_syscall`, and its return. -/
def syscallRestore (c : Cpu) : Cpu :=
  (popfd (popEbx (popEbp (popEsi (popEdi (popCallbackSP c)))))).ret

/-- `core_syscall.pm_return`. -/
def syscallPmReturn (c : Cpu) : Cpu :=
  let esi := (c.realModeSP.toUInt32 + c.realModeSS.toUInt32 <<< 4).toNat
  let edi := (dword c.mem (c.esp + 9 * 4)).toNat
  let edi := if edi = 0 then esi else edi
  let sssp := c.realModeSP.toNat + 0x10000 * c.realModeSS.toNat + 54
  syscallRestore { c with
    mem := repMovsd c.mem 11 esi edi, realModeSP := UInt16.ofNat sssp,
    realModeSS := UInt16.ofNat (sssp / 0x10000) }

/-- What `core_cfarcall` writes to the real-mode stack, from a linear address on: the flags, the
target, the return address, and the stack frame of the caller. -/
def cfarcallFrame (sym : Labels) (c : Cpu) (ecx : Nat) (edi : Nat) : Mem :=
  let mem := putDword c.mem edi (dword c.mem (c.esp + 5 * 4) &&& 0x202)
  let mem := putDword mem (edi + 4) (dword mem (c.esp + 7 * 4))
  let mem := putDword mem (edi + 8) sym.cfarcallRmReturn
  let esi := (dword mem (c.esp + 8 * 4)).toNat
  let mem := repMovsd mem (ecx / 4) esi (edi + 12)
  repMovsb mem (ecx % 4) (esi + 4 * (ecx / 4)) (edi + 12 + 4 * (ecx / 4))

/-- `core_cfarcall`, up to real mode. -/
def cfarcallEnter (sym : Labels) (c : Cpu) : Cpu :=
  let c := saveRegs c
  let ecx := dword c.mem (c.esp + 9 * 4)
  let c : Cpu := { c with callbackSP := setLow c.callbackSP c.realModeSP }
  let edi : UInt32 := ((c.realModeSP.toUInt32 - ecx) &&& ~~~3) - 4 * 3
  let lin : UInt32 := edi + c.realModeSS.toUInt32 <<< 4
  enterRm { c with
    realModeSP := edi.toUInt16, mem := cfarcallFrame sym c ecx.toNat lin.toNat }

/-- `core_cfarcall.rm`. -/
def cfarcallRm (c : Cpu) : Cpu :=
  { c with
    eflags := dword c.mem c.rmTop, eip := dword c.mem (c.rmTop + 4),
    esp := (c.esp + 8) % 0x10000 }

/-- `core_cfarcall.rm_return`. -/
def cfarcallRmReturn (c : Cpu) : Cpu :=
  enterPm { c with esp := c.callbackSP.toNat % 0x10000, esi := c.eax }

/-- The pops at the end of `core_cfarcall`, and its return. -/
def cfarcallRestore (c : Cpu) : Cpu :=
  (popfd (popEdi (popEsi (popEbp (popEbx (popCallbackSP c)))))).ret

/-- `core_cfarcall.pm_return`. -/
def cfarcallPmReturn (c : Cpu) : Cpu := cfarcallRestore { c with eax := c.esi }

/-- From the call of a gate up to the routine in real mode. -/
def Gate.enter (sym : Labels) : Gate → Cpu → Cpu
  | .coreSyscall, c => syscallRm (syscallEnter sym c)
  | .coreCfarcall, c => cfarcallRm (cfarcallEnter sym c)

/-- From the return of the routine up to the return of a gate. -/
def Gate.leave : Gate → Cpu → Cpu
  | .coreSyscall, c => syscallPmReturn (syscallRmReturn c)
  | .coreCfarcall, c => cfarcallPmReturn (cfarcallRmReturn c)

/-- `_pm_call`, from `enter_pm` up to the routine in protected mode. -/
def pmCallEnter (sym : Labels) (c : Cpu) : Cpu := (enterPm c).push sym.pmCallNext

/-- `_pm_call`, from the return of the routine up to `.rm`. -/
def pmCallLeave (c : Cpu) : Cpu := enterRm c.ret

/-! ## Runs -/

/-- The bytes from an address up to the end of the protected-mode stacks. -/
def SameAbove (hi p : Nat) (mem mem' : Mem) : Prop := ∀ a, p ≤ a → a < hi → mem' a = mem a

/-- The bytes that a gate takes on the real-mode stack, at most. -/
def Gate.size (c : Cpu) : Gate → Nat
  | .coreSyscall => 54
  | .coreCfarcall => (dword c.mem (c.esp + 3 * 4)).toNat + 15

/-- `core_syscall` writes the registers that it returns to an address. -/
def Gate.Dest (c : Cpu) (a : Nat) : Gate → Prop
  | .coreSyscall =>
    let dest := (dword c.mem (c.esp + 3 * 4)).toNat
    dest ≠ 0 ∧ dest ≤ a ∧ a < dest + 44
  | .coreCfarcall => False

/-- A gate has room: the protected-mode stack lies between two addresses, with the arguments and the
place for six registers, and the real-mode stack lies apart from it, with the place for what the
gate writes. The registers that are returned do not go where the gate has saved the others. -/
structure Room (lo hi : Nat) (g : Gate) (c : Cpu) : Prop where
  low : lo + 24 ≤ c.esp
  high : c.esp + 16 ≤ hi
  fits : g.size c ≤ c.realModeSP.toNat
  apart : c.realModeSS.toNat * 16 + c.realModeSP.toNat ≤ lo ∨
    hi + g.size c ≤ c.realModeSS.toNat * 16 + c.realModeSP.toNat
  dest : ∀ a, g.Dest c a → a < c.esp - 24 ∨ c.esp + 4 ≤ a

/-- What runs: a routine in real mode that was called by a gate, a routine in protected mode that
was called by `pm_call`, with all from an address on not its own, or a gate. -/
inductive Code
  | real
  | routine (floor : Nat)
  | gate (g : Gate)

/-- What code can do until it returns. A routine in real mode leaves what is in use of the
protected-mode stack, and the variables of the gates; it can call protected mode. A routine there
has its own stack, and can call the gates. -/
inductive Run (sym : Labels) (lo hi : Nat) : Code → Cpu → Cpu → Prop
  | realEnd {c : Cpu} : Run sym lo hi .real c c
  | realStep {c d e : Cpu} : d.callbackSP = c.callbackSP → d.pmesp = c.pmesp →
      SameAbove hi c.pmesp c.mem d.mem → Run sym lo hi .real d e → Run sym lo hi .real c e
  | pmCall {c d e : Cpu} : 4 ≤ c.pmesp →
      Run sym lo hi (.routine (c.pmesp - 4)) (pmCallEnter sym c) d → d.esp = c.pmesp - 4 →
      Run sym lo hi .real (pmCallLeave d) e → Run sym lo hi .real c e
  | routineEnd {floor : Nat} {c : Cpu} : Run sym lo hi (.routine floor) c c
  | routineStep {floor : Nat} {c d e : Cpu} : d.callbackSP = c.callbackSP →
      SameAbove hi floor c.mem d.mem → Run sym lo hi (.routine floor) d e →
      Run sym lo hi (.routine floor) c e
  | gateCall {floor : Nat} {g : Gate} {c d e : Cpu} : c.esp + 4 ≤ floor →
      (∀ a, g.Dest c a → a < floor ∨ hi ≤ a) → Run sym lo hi (.gate g) c d →
      Run sym lo hi (.routine floor) d e → Run sym lo hi (.routine floor) c e
  | gate {g : Gate} {c d : Cpu} : Room lo hi g c → Run sym lo hi .real (g.enter sym c) d →
      d.ss = c.realModeSS → Run sym lo hi (.gate g) c (g.leave d)

/-- A gate has returned to its caller, with the registers and `CallbackSP` as they were. -/
structure Returned (c e : Cpu) : Prop where
  eip : e.eip = c.top
  esp : e.esp = c.esp + 4
  ebx : e.ebx = c.ebx
  ebp : e.ebp = c.ebp
  esi : e.esi = c.esi
  edi : e.edi = c.edi
  eflags : e.eflags = c.eflags
  callbackSP : e.callbackSP = c.callbackSP

/-! ## Moves -/

variable {sym : Labels} {lo hi a : Nat} {c d e : Cpu} {g : Gate} {mem : Mem}

/-- A move of bytes changes only where it goes, wherever it comes from. -/
theorem repMovsb_of_ne {cx si di : Nat} (h : a < di ∨ di + cx ≤ a) :
    repMovsb mem cx si di a = mem a := by
  induction cx generalizing mem si di with
  | zero => rfl
  | succ cx ih => rw [repMovsb, ih (by omega), put_of_ne _ (by omega)]

/-- A move of dwords does, too. -/
theorem repMovsd_of_ne {cx si di : Nat} (h : a < di ∨ di + 4 * cx ≤ a) :
    repMovsd mem cx si di a = mem a := by
  induction cx generalizing mem si di with
  | zero => rfl
  | succ cx ih => rw [repMovsd, ih (by omega), putDword_of_ne _ (by omega)]

/-- A copy leaves the bytes outside of its target. -/
theorem repMovsbFrom_of_ne {bs : List UInt8} {di : Nat} (h : a < di ∨ di + bs.length ≤ a) :
    repMovsbFrom mem bs di a = mem a := by
  rcases h with hlt | hge
  · exact repMovsbFrom_of_lt hlt
  · exact repMovsbFrom_of_ge hge

/-- Pushes in real mode take bytes below `SP`, and change nothing else. -/
theorem rmPushAll_spec {items : List (List UInt8)} (hlen : items.flatten.length ≤ c.esp)
    (hesp : c.esp < 0x10000) : ∃ mem, c.rmPushAll items =
      { c with esp := c.esp - items.flatten.length, mem } ∧
      ∀ a, a < c.rmTop - items.flatten.length ∨ c.rmTop ≤ a → mem a = c.mem a := by
  induction items generalizing c with
  | nil => exact ⟨c.mem, rfl, fun _ _ => rfl⟩
  | cons bs items ih =>
    rw [List.flatten_cons, List.length_append] at hlen ⊢
    have hdown : (c.esp + 0x10000 - bs.length) % 0x10000 = c.esp - bs.length := by omega
    have hpush : c.rmPush bs = { c with
        esp := c.esp - bs.length
        mem := repMovsbFrom c.mem bs (c.ss.toNat * 16 + (c.esp - bs.length)) } := by
      simp only [Cpu.rmPush, hdown]
    obtain ⟨mem, hall, hframe⟩ := @ih (c.rmPush bs) (by rw [hpush]; dsimp only; omega)
      (by rw [hpush]; dsimp only; omega)
    refine ⟨mem, ?_, fun a ha => ?_⟩
    · have hcons : c.rmPushAll (bs :: items) = (c.rmPush bs).rmPushAll items := rfl
      rw [hcons, hall, hpush, Nat.sub_sub]
    · rw [hpush] at hframe
      simp only [Cpu.rmTop] at hframe ha
      rw [hframe a (by omega), repMovsbFrom_of_ne (by omega)]

/-! ## The frame of a gate -/

/-- A push leaves the pointer of the real-mode stack. -/
theorem push_realModeSP (v : UInt32) : (c.push v).realModeSP = c.realModeSP := rfl

/-- It leaves its segment. -/
theorem push_realModeSS (v : UInt32) : (c.push v).realModeSS = c.realModeSS := rfl

/-- Six registers are saved on the stack. -/
@[simp] theorem saveRegs_esp : (saveRegs c).esp = c.esp - 24 := by
  simp only [saveRegs, Cpu.push]
  omega

/-- A gate saves six registers below the stack of its caller. -/
structure Saved (c : Cpu) (mem : Mem) : Prop where
  callbackSP : dword mem (c.esp - 24) = c.callbackSP
  edi : dword mem (c.esp - 20) = c.edi
  esi : dword mem (c.esp - 16) = c.esi
  ebp : dword mem (c.esp - 12) = c.ebp
  ebx : dword mem (c.esp - 8) = c.ebx
  eflags : dword mem (c.esp - 4) = c.eflags
  ret : dword mem c.esp = c.top

/-- Nothing else is stored. -/
theorem saveRegs_of_ne (hroom : 24 ≤ c.esp) (h : a < c.esp - 24 ∨ c.esp ≤ a) :
    (saveRegs c).mem a = c.mem a := by
  simp only [saveRegs, Cpu.push, Nat.sub_sub, Nat.reduceAdd]
  simp (disch := omega) only [putDword_of_ne]

/-- They are in their places. -/
theorem saveRegs_saved (hroom : 24 ≤ c.esp) : Saved c (saveRegs c).mem := by
  simp only [saveRegs, Cpu.push, Nat.sub_sub, Nat.reduceAdd]
  constructor
  all_goals simp (disch := omega) only [dword_putDword, dword_putDword_of_ne, Cpu.top]

/-- What is saved stays where memory does. -/
theorem Saved.congr {mem' : Mem} (h : Saved c mem) (hroom : 24 ≤ c.esp)
    (hsame : ∀ a, c.esp - 24 ≤ a → a < c.esp + 4 → mem' a = mem a) : Saved c mem' := by
  obtain ⟨hsp, hedi, hesi, hebp, hebx, hflags, hret⟩ := h
  have hdword : ∀ a, c.esp - 24 ≤ a → a ≤ c.esp → dword mem' a = dword mem a := fun a hlo hhi =>
    dword_congr fun i hi => hsame (a + i) (by omega) (by omega)
  refine ⟨?_, ?_, ?_, ?_, ?_, ?_, ?_⟩
  all_goals
    rw [hdword _ (by omega) (by omega)]
    assumption

/-- The six places of the frame, from `ESP` up to the return address. -/
theorem frame_places (hroom : 24 ≤ c.esp) : c.esp - 24 + 4 = c.esp - 20 ∧
    c.esp - 20 + 4 = c.esp - 16 ∧ c.esp - 16 + 4 = c.esp - 12 ∧ c.esp - 12 + 4 = c.esp - 8 ∧
    c.esp - 8 + 4 = c.esp - 4 ∧ c.esp - 4 + 4 = c.esp := by
  omega

/-- The pops of `core_syscall`: each register gets what was saved of it. -/
theorem syscallRestore_spec (h : Saved c d.mem) (hroom : 24 ≤ c.esp) (hesp : d.esp = c.esp - 24) :
    Returned c (syscallRestore d) := by
  obtain ⟨h20, h16, h12, h8, h4, h0⟩ := frame_places hroom
  have hregs : syscallRestore d = { d with
      callbackSP := c.callbackSP, edi := c.edi, esi := c.esi, ebp := c.ebp, ebx := c.ebx,
      eflags := c.eflags, eip := c.top, esp := c.esp + 4 } := by
    simp only [syscallRestore, popCallbackSP, popEbx, popEbp, popEsi, popEdi, popfd, Cpu.ret,
      Cpu.drop, Cpu.top, hesp, h20, h16, h12, h8, h4, h0, h.callbackSP, h.edi, h.esi, h.ebp, h.ebx,
      h.eflags, h.ret]
  rw [hregs]
  exact ⟨rfl, rfl, rfl, rfl, rfl, rfl, rfl, rfl⟩

/-- What `core_cfarcall` returns: four registers with what another one had. -/
def Cpu.swapped (c : Cpu) : Cpu := { c with ebx := c.edi, ebp := c.esi, esi := c.ebp, edi := c.ebx }

/-- The pops of `core_cfarcall`: four registers get what was saved of another one. -/
theorem cfarcallRestore_spec (h : Saved c d.mem) (hroom : 24 ≤ c.esp)
    (hesp : d.esp = c.esp - 24) : Returned c.swapped (cfarcallRestore d) := by
  obtain ⟨h20, h16, h12, h8, h4, h0⟩ := frame_places hroom
  have hregs : cfarcallRestore d = { d with
      callbackSP := c.callbackSP, ebx := c.edi, ebp := c.esi, esi := c.ebp, edi := c.ebx,
      eflags := c.eflags, eip := c.top, esp := c.esp + 4 } := by
    simp only [cfarcallRestore, popCallbackSP, popEbx, popEbp, popEsi, popEdi, popfd, Cpu.ret,
      Cpu.drop, Cpu.top, hesp, h20, h16, h12, h8, h4, h0, h.callbackSP, h.edi, h.esi, h.ebp, h.ebx,
      h.eflags, h.ret]
  rw [hregs]
  exact ⟨rfl, rfl, rfl, rfl, rfl, rfl, rfl, rfl⟩

/-! ## What a gate does -/

/-- The way of a gate to real mode: it saves the registers, and the place below them is where to
come back to. Of the protected-mode stack nothing else changes. -/
structure Entered (lo hi : Nat) (g : Gate) (c d : Cpu) : Prop where
  pmesp : d.pmesp = c.esp - 24
  mem : ∀ a, lo ≤ a → a < hi → d.mem a = (saveRegs c).mem a
  sp : d.callbackSP.toNat % 0x10000 =
    c.realModeSP.toNat - (match g with | .coreSyscall => 10 | .coreCfarcall => 0)

/-- The low half is the one that is set. -/
theorem setLow_low (v : UInt32) (w : UInt16) : (setLow v w).toNat % 0x10000 = w.toNat := by
  have hw := w.toNat_lt
  have hmask : (0xffff0000 : UInt32).toNat % 2 ^ 16 = 0 := rfl
  have hpow : 0x10000 = 2 ^ 16 := rfl
  rw [setLow, UInt32.toNat_or, UInt32.toNat_and, hpow, Nat.or_mod_two_pow, Nat.and_mod_two_pow,
    hmask, Nat.and_zero, Nat.zero_or, UInt16.toNat_toUInt32, Nat.mod_eq_of_lt hw]

/-- A linear address of the real-mode stack. -/
theorem linear_toNat {x : UInt32} (hx : x.toNat < 0x10000) (ss : UInt16) :
    (x + ss.toUInt32 <<< 4).toNat = ss.toNat * 16 + x.toNat := by
  have hss := ss.toNat_lt
  have hfour : (4 : UInt32).toNat % 32 = 4 := rfl
  rw [UInt32.toNat_add, UInt32.toNat_shiftLeft, hfour, UInt16.toNat_toUInt32, Nat.shiftLeft_eq]
  omega

/-- `core_syscall` writes 54 bytes on the real-mode stack. -/
theorem syscallFrame_of_ne {edi : Nat} (h : a < edi ∨ edi + 54 ≤ a) :
    syscallFrame sym c edi a = c.mem a := by
  simp only [syscallFrame]
  rw [repMovsbFrom_of_ne (by rw [length_leBytes]; omega), putDword_of_ne _ (by omega),
    putDword_of_ne _ (by omega), putDword_of_ne _ (by omega), repMovsd_of_ne (by omega)]

/-- `core_cfarcall` writes three dwords and the stack frame there. -/
theorem cfarcallFrame_of_ne {ecx edi : Nat} (h : a < edi ∨ edi + 12 + ecx ≤ a) :
    cfarcallFrame sym c ecx edi a = c.mem a := by
  simp only [cfarcallFrame]
  rw [repMovsb_of_ne (by omega), repMovsd_of_ne (by omega), putDword_of_ne _ (by omega),
    putDword_of_ne _ (by omega), putDword_of_ne _ (by omega)]

/-- The variables are as the caller has them behind the pushes. -/
theorem saveRegs_variables : (saveRegs c).realModeSP = c.realModeSP ∧
    (saveRegs c).realModeSS = c.realModeSS := by
  simp only [saveRegs, push_realModeSP, push_realModeSS, and_self]

/-- `core_syscall` enters real mode with the registers saved. -/
theorem syscall_entered (h : Room lo hi .coreSyscall c) :
    Entered lo hi .coreSyscall c (Gate.enter sym .coreSyscall c) := by
  obtain ⟨-, -, hfits, hapart, -⟩ := h
  simp only [Gate.size] at hfits hapart
  have hsp := c.realModeSP.toNat_lt
  obtain ⟨hSP, hSS⟩ := @saveRegs_variables c
  generalize hx : c.realModeSP.toUInt32 - 54 = edi
  have hedi : edi.toNat = c.realModeSP.toNat - 54 := by
    have hle : (54 : UInt32) ≤ c.realModeSP.toUInt32 := by
      rw [UInt32.le_iff_toNat_le, UInt16.toNat_toUInt32]
      exact hfits
    rw [← hx, UInt32.toNat_sub_of_le _ _ hle, UInt16.toNat_toUInt32]
    rfl
  have hlin := linear_toNat (x := edi) (by omega) c.realModeSS
  refine ⟨saveRegs_esp, fun a hlo hhi => ?_, ?_⟩
  · simp only [Gate.enter, syscallRm, syscallEnter, enterRm, hSP, hSS, hx, hlin]
    exact syscallFrame_of_ne (by omega)
  · simp only [Gate.enter, syscallRm, syscallEnter, enterRm, hSP, hx, setLow_low]
    simp only [UInt16.toNat_ofNat', UInt32.toNat_toUInt16, hedi]
    omega

/-- So does `core_cfarcall`. -/
theorem cfarcall_entered (h : Room lo hi .coreCfarcall c) :
    Entered lo hi .coreCfarcall c (Gate.enter sym .coreCfarcall c) := by
  obtain ⟨hlow, hhigh, hfits, hapart, -⟩ := h
  simp only [Gate.size] at hfits hapart
  have hsp := c.realModeSP.toNat_lt
  obtain ⟨hSP, hSS⟩ := @saveRegs_variables c
  have hecx : dword (saveRegs c).mem (c.esp - 24 + 9 * 4) = dword c.mem (c.esp + 3 * 4) := by
    have hplace : c.esp - 24 + 9 * 4 = c.esp + 3 * 4 := by omega
    rw [hplace]
    exact dword_congr fun i hi => saveRegs_of_ne (by omega) (by omega)
  generalize hsize : dword c.mem (c.esp + 3 * 4) = ecx at *
  generalize hx : ((c.realModeSP.toUInt32 - ecx) &&& ~~~3) - 4 * 3 = edi
  have hedi : edi.toNat + 12 + ecx.toNat ≤ c.realModeSP.toNat ∧
      c.realModeSP.toNat ≤ edi.toNat + ecx.toNat + 15 := by
    have hle : ecx ≤ c.realModeSP.toUInt32 := by
      rw [UInt32.le_iff_toNat_le, UInt16.toNat_toUInt32]
      omega
    have hround : ((c.realModeSP.toUInt32 - ecx) &&& ~~~3).toNat =
        (c.realModeSP.toNat - ecx.toNat) / 2 ^ 2 * 2 ^ 2 := by
      have hthree : (3 : UInt32).toNat = 2 ^ 2 - 1 := rfl
      rw [toNat_and_not_mask hthree, UInt32.toNat_sub_of_le _ _ hle, UInt16.toNat_toUInt32]
    have htwelve : (4 * 3 : UInt32) ≤ (c.realModeSP.toUInt32 - ecx) &&& ~~~3 := by
      have hnat : (4 * 3 : UInt32).toNat = 12 := rfl
      rw [UInt32.le_iff_toNat_le, hround, hnat]
      omega
    have hnat : (4 * 3 : UInt32).toNat = 12 := rfl
    rw [← hx, UInt32.toNat_sub_of_le _ _ htwelve, hround, hnat]
    omega
  have hlin := linear_toNat (x := edi) (by omega) c.realModeSS
  refine ⟨saveRegs_esp, fun a hlo hhi => ?_, ?_⟩
  · simp only [Gate.enter, cfarcallRm, cfarcallEnter, enterRm, hSP, hSS, saveRegs_esp, hecx, hx,
      hlin]
    exact cfarcallFrame_of_ne (by omega)
  · simp only [Gate.enter, cfarcallRm, cfarcallEnter, enterRm, hSP, setLow_low]
    rfl

/-- Each gate does. -/
theorem Gate.entered (h : Room lo hi g c) : Entered lo hi g c (g.enter sym c) := by
  cases g with
  | coreSyscall => exact syscall_entered h
  | coreCfarcall => exact cfarcall_entered h

/-- What a gate returns to its caller: the registers, exchanged by `core_cfarcall`, and memory from
the stack of the caller on, apart from where the registers are returned. -/
structure Left (hi : Nat) (g : Gate) (c e : Cpu) : Prop where
  returned : Returned (match g with | .coreSyscall => c | .coreCfarcall => c.swapped) e
  mem : ∀ a, c.esp ≤ a → a < hi → ¬ g.Dest c a → e.mem a = c.mem a

/-- A gate that is left has put `CallbackSP` back. -/
theorem Left.callbackSP (h : Left hi g c e) : e.callbackSP = c.callbackSP := by
  cases g with
  | coreSyscall => exact h.returned.callbackSP
  | coreCfarcall => exact h.returned.callbackSP

/-- The way of a gate back from real mode. -/
theorem syscall_left (h : Room lo hi .coreSyscall c) (hd : d.pmesp = c.esp - 24)
    (hmem : ∀ a, c.esp - 24 ≤ a → a < hi → d.mem a = (saveRegs c).mem a)
    (hsp : d.callbackSP.toNat % 0x10000 = c.realModeSP.toNat - 10) (hss : d.ss = c.realModeSS) :
    Left hi .coreSyscall c (Gate.leave .coreSyscall d) := by
  obtain ⟨hlow, hhigh, hfits, hapart, hdest⟩ := h
  simp only [Gate.size] at hfits hapart
  have hroom : 24 ≤ c.esp := by omega
  have hlt := c.realModeSP.toNat_lt
  have hss' := c.realModeSS.toNat_lt
  -- The registers of the routine go to the real-mode stack.
  generalize hitems : [d.eflags, d.eax, d.ecx, d.edx, d.ebx,
      UInt32.ofNat ((d.callbackSP.toNat % 0x10000 + 0xfffc) % 0x10000), d.ebp, d.esi, d.edi].map
        (fun v => leBytes v.toNat 4) ++
      [d.ds, d.es, d.fs, d.gs].map (fun v => leBytes v.toNat 2) = items
  have hlen : items.flatten.length = 44 := by
    rw [← hitems]
    simp
  obtain ⟨mem, hpush, hframe⟩ := @rmPushAll_spec { d with esp := d.callbackSP.toNat % 0x10000 }
    items (by dsimp only; omega) (by dsimp only; omega)
  have hesp : c.realModeSP.toNat - 10 - 44 = c.realModeSP.toNat - 54 := by omega
  have hback : syscallRmReturn d = enterPm { d with esp := c.realModeSP.toNat - 54, mem } := by
    rw [syscallRmReturn]
    simp only [hitems]
    rw [hpush, hlen, hsp, hesp]
  simp only [Cpu.rmTop, hlen, hsp, hss] at hframe
  have hmem' : ∀ a, c.esp - 24 ≤ a → a < hi → mem a = (saveRegs c).mem a := fun a hlo hhi => by
    rw [hframe a (by omega), hmem a hlo hhi]
  -- They are returned from there.
  have hlin : ((UInt16.ofNat (c.realModeSP.toNat - 54)).toUInt32 +
      c.realModeSS.toUInt32 <<< 4).toNat =
      c.realModeSS.toNat * 16 + (c.realModeSP.toNat - 54) := by
    have hnat : (UInt16.ofNat (c.realModeSP.toNat - 54)).toUInt32.toNat =
        c.realModeSP.toNat - 54 := by
      rw [UInt16.toNat_toUInt32, UInt16.toNat_ofNat_of_lt' ((Nat.sub_le _ _).trans_lt hlt)]
    rw [linear_toNat (by omega), hnat]
  have harg : dword mem (c.esp - 24 + 9 * 4) = dword c.mem (c.esp + 3 * 4) := by
    have hplace : c.esp - 24 + 9 * 4 = c.esp + 3 * 4 := by omega
    rw [hplace]
    exact dword_congr fun i hi => by
      rw [hmem' _ (by omega) (by omega), saveRegs_of_ne hroom (by omega)]
  generalize hto : (if (dword c.mem (c.esp + 3 * 4)).toNat = 0 then
    c.realModeSS.toNat * 16 + (c.realModeSP.toNat - 54)
    else (dword c.mem (c.esp + 3 * 4)).toNat) = edi
  have hcopy : ∀ a, c.esp - 24 ≤ a → a < hi → ¬ Gate.coreSyscall.Dest c a →
      repMovsd mem 11 (c.realModeSS.toNat * 16 + (c.realModeSP.toNat - 54)) edi a =
        (saveRegs c).mem a := by
    intro a hlo hhi hout
    simp only [Gate.Dest] at hout
    rw [← hmem' a hlo hhi]
    refine repMovsd_of_ne ?_
    split_ifs at hto <;> omega
  obtain ⟨d', hleave, hesp', hmem''⟩ : ∃ d', Gate.leave .coreSyscall d = syscallRestore d' ∧
      d'.esp = c.esp - 24 ∧
      d'.mem = repMovsd mem 11 (c.realModeSS.toNat * 16 + (c.realModeSP.toNat - 54)) edi := by
    rw [Gate.leave, hback, syscallPmReturn]
    refine ⟨_, rfl, hd, ?_⟩
    simp only [enterPm, hss, hlin, hd, harg, hto]
  rw [hleave]
  refine ⟨syscallRestore_spec ?_ hroom hesp', fun a hlo hhi hout => ?_⟩
  · rw [hmem'']
    refine (saveRegs_saved hroom).congr hroom fun a hlo hhi => hcopy a hlo (by omega) fun hin => ?_
    have := hdest a hin
    omega
  · have hkept := hcopy a (by omega) hhi hout
    rw [saveRegs_of_ne hroom (Or.inr hlo), ← hmem''] at hkept
    exact hkept

/-- `core_cfarcall` returns with the stack of its caller, and with two pairs of registers
exchanged. -/
theorem cfarcall_left (h : Room lo hi .coreCfarcall c) (hd : d.pmesp = c.esp - 24)
    (hmem : ∀ a, c.esp - 24 ≤ a → a < hi → d.mem a = (saveRegs c).mem a) :
    Left hi .coreCfarcall c (Gate.leave .coreCfarcall d) := by
  have hroom : 24 ≤ c.esp := by have := h.low; omega
  have hhigh := h.high
  have hsaved : Saved c d.mem := (saveRegs_saved hroom).congr hroom fun a hlo hhi =>
    hmem a hlo (by omega)
  have hspec := @cfarcallRestore_spec c
    { enterPm { d with esp := d.callbackSP.toNat % 0x10000, esi := d.eax } with eax := d.eax }
    hsaved hroom hd
  refine ⟨hspec, fun a hlo hhi _ => ?_⟩
  have hkept := hmem a (by omega) hhi
  rw [saveRegs_of_ne hroom (Or.inr hlo)] at hkept
  exact hkept

/-! ## What runs keep -/

/-- What is kept of the state when code returns. -/
def Kept (hi : Nat) : Code → Cpu → Cpu → Prop
  | .real, c, e => e.callbackSP = c.callbackSP ∧ e.pmesp = c.pmesp ∧ SameAbove hi c.pmesp c.mem e.mem
  | .routine floor, c, e => e.callbackSP = c.callbackSP ∧ SameAbove hi floor c.mem e.mem
  | .gate g, c, e => Left hi g c e

/-- Each way in which code runs keeps it, with all calls within calls. -/
theorem Run.kept {code : Code} (h : Run sym lo hi code c e) : Kept hi code c e := by
  induction h with
  | realEnd => exact ⟨rfl, rfl, fun _ _ _ => rfl⟩
  | realStep hsp hpm hmem _ ih =>
    obtain ⟨ihsp, ihpm, ihmem⟩ := ih
    refine ⟨ihsp.trans hsp, ihpm.trans hpm, fun a hlo hhi => ?_⟩
    rw [ihmem a (hpm ▸ hlo) hhi, hmem a hlo hhi]
  | @pmCall c d e hroom _ hesp _ ihr ih =>
    obtain ⟨hsp, hmem⟩ := ihr
    obtain ⟨ihsp, ihpm, ihmem⟩ := ih
    have hpm : (pmCallLeave d).pmesp = c.pmesp := by
      simp only [pmCallLeave, enterRm, Cpu.ret, Cpu.drop, hesp]
      omega
    refine ⟨ihsp.trans hsp, ihpm.trans hpm, fun a hlo hhi => ?_⟩
    have hpush : (pmCallEnter sym c).mem a = c.mem a := by
      simp only [pmCallEnter, Cpu.push, enterPm]
      exact putDword_of_ne _ (by omega)
    rw [ihmem a (hpm ▸ hlo) hhi, ← hpush]
    exact hmem a (by omega) hhi
  | routineEnd => exact ⟨rfl, fun _ _ _ => rfl⟩
  | routineStep hsp hmem _ ih =>
    refine ⟨ih.1.trans hsp, fun a hlo hhi => ?_⟩
    rw [ih.2 a hlo hhi, hmem a hlo hhi]
  | gateCall hfloor hdest _ _ ihg ih =>
    refine ⟨ih.1.trans ihg.callbackSP, fun a hlo hhi => ?_⟩
    rw [ih.2 a hlo hhi]
    exact ihg.mem a (by omega) hhi fun hin => by have := hdest a hin; omega
  | @gate g c d hroom _ hss ih =>
    obtain ⟨hpm, hmem, hsp⟩ := @Gate.entered sym lo hi c g hroom
    obtain ⟨ihsp, ihpm, ihmem⟩ := ih
    have hlow := hroom.low
    have hkept : ∀ a, c.esp - 24 ≤ a → a < hi → d.mem a = (saveRegs c).mem a := fun a hlo hhi => by
      rw [ihmem a (by rw [hpm]; exact hlo) hhi, hmem a (by omega) hhi]
    cases g with
    | coreSyscall => exact syscall_left hroom (ihpm.trans hpm) hkept (by rw [ihsp, hsp]) hss
    | coreCfarcall => exact cfarcall_left hroom (ihpm.trans hpm) hkept

/-! ## The result -/

/-- A gate returns to its caller with the registers, the flags and `CallbackSP` as they were, if and
only if it is `core_syscall` or the registers that `core_cfarcall` exchanges are equal. -/
theorem gate_returned_iff (sym : Labels) (lo hi : Nat) (g : Gate) (c e : Cpu)
    (h : Run sym lo hi (.gate g) c e) :
    Returned c e ↔ (g = .coreSyscall ∨ (c.ebx = c.edi ∧ c.ebp = c.esi)) := by
  obtain ⟨hreturned, -⟩ : Left hi g c e := h.kept
  cases g with
  | coreSyscall => exact iff_of_true hreturned (Or.inl rfl)
  | coreCfarcall =>
    obtain ⟨heip, hesp, hebx, hebp, hesi, hedi, hflags, hsp⟩ := hreturned
    constructor
    · intro h
      exact Or.inr ⟨h.ebx.symm.trans hebx, h.ebp.symm.trans hebp⟩
    · rintro (hg | ⟨hbx, hbp⟩)
      · cases hg
      · exact ⟨heip, hesp, hebx.trans hbx.symm, hebp.trans hbp.symm, hesi.trans hbp,
          hedi.trans hbx, hflags, hsp⟩

/-- A caller with an empty memory, a stack at 2 MiB, and 1 in `EBX`. -/
def sampleCaller : Cpu where
  eax := 0
  ebx := 1
  ecx := 0
  edx := 0
  esi := 0
  edi := 0
  ebp := 0
  esp := 0x200000
  eflags := 0x202
  eip := 0
  ds := 0
  es := 0
  fs := 0
  gs := 0
  ss := 0
  mem := fun _ => 0
  callbackSP := 0
  pmesp := 0
  realModeSP := 0x7000
  realModeSS := 0

def sampleLabels : Labels := ⟨0x8000, 0x8100, 0x8200⟩

/-- The sample has room for its frame. -/
theorem sampleCaller_room (g : Gate) : Room 0x1f0000 0x210000 g sampleCaller := by
  have hzero : ∀ a, dword sampleCaller.mem a = 0 := fun _ => rfl
  cases g with
  | coreSyscall =>
    refine ⟨by decide, by decide, by decide, Or.inl (by decide), fun a ha => ?_⟩
    exact absurd (by rw [hzero]; rfl) ha.1
  | coreCfarcall =>
    refine ⟨by decide, by decide, ?_, Or.inl (by decide), fun a ha => ha.elim⟩
    rw [Gate.size, hzero]
    decide

/-- A gate with a routine that returns at once. -/
theorem sampleCaller_run (g : Gate) : Run sampleLabels 0x1f0000 0x210000 (.gate g) sampleCaller
    (g.leave (g.enter sampleLabels sampleCaller)) := by
  refine .gate (sampleCaller_room g) .realEnd ?_
  cases g <;> rfl

/-- A caller with different registers. -/
theorem gate_returned_iff_sample :
    Returned sampleCaller
        (Gate.leave .coreCfarcall (Gate.enter sampleLabels .coreCfarcall sampleCaller)) ↔
      (Gate.coreCfarcall = .coreSyscall ∨ (sampleCaller.ebx = sampleCaller.edi ∧
        sampleCaller.ebp = sampleCaller.esi)) :=
  gate_returned_iff sampleLabels 0x1f0000 0x210000 .coreCfarcall sampleCaller _
    (sampleCaller_run .coreCfarcall)

/-- Not every caller gets its registers back. -/
theorem cfarcall_exchanges : ¬ ∀ (sym : Labels) (lo hi : Nat) (g : Gate) (c e : Cpu),
    Run sym lo hi (.gate g) c e → Returned c e := by
  intro hall
  have hreturned := hall _ _ _ _ _ _ (sampleCaller_run .coreCfarcall)
  have hleft : Left 0x210000 .coreCfarcall sampleCaller _ := (sampleCaller_run .coreCfarcall).kept
  exact absurd (hreturned.ebx.symm.trans hleft.returned.ebx) (by decide)

end Liigboot.Pm
