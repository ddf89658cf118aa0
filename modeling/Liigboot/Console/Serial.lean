import Liigboot.Lib.Circular
import Mathlib.Algebra.Group.Nat.Defs

/-!
# The serial console

`irq_common` puts the bytes of the serial port into a circular buffer, and `getchar` takes them out.
Interrupts come at any time in which `getchar` has them enabled. A byte is dropped when its line
status does not match `FlowIgnore`, or when the buffer is full.
-/

namespace Liigboot.Console

open Circular

/-! ## The source -/

/-- `serial_buf_size`. -/
def serialBufSize : Nat := 4096

/-- Where `getchar` is: before it reads the tail, behind `.serial_queued` with `BX`, or with the
byte in `AL`. -/
inductive Reader
  | again
  | serialQueued (bx : Nat)
  | loaded (bx : Nat) (al : UInt8)
  deriving DecidableEq, Repr

/-- The memory from `aux.serial` on, `SerialHead`, `SerialTail`, and the bytes that `getchar` has
returned. -/
structure State where
  mem : Nat → UInt8
  serialHead : Nat
  serialTail : Nat
  reader : Reader
  out : List UInt8

/-- The loop of `irq_common`, with `DI`, for the bytes that it reads and the line status that it
reads behind each of them. -/
def irqLoop (flowIgnore : UInt8) : List (UInt8 × UInt8) → Nat → State → State
  | [], _, st => st
  | (al, lsr) :: rest, di, st =>
    let st := { st with mem := put st.mem di al }
    let di := (di + 1) % 0x10000
    let (di, st) :=
      if lsr &&& flowIgnore ≠ flowIgnore then (di, st)
      else
        let di := di &&& (serialBufSize - 1)
        if di = st.serialTail then (di, st) else (di, { st with serialHead := di })
    if lsr &&& 1 ≠ 0 then irqLoop flowIgnore rest di st else st

/-- `irq_common`, with the line status that it reads first. -/
def irqCommon (flowIgnore lsr : UInt8) (burst : List (UInt8 × UInt8)) (st : State) : State :=
  if lsr &&& 1 ≠ 0 then irqLoop flowIgnore burst st.serialHead st else st

/-- `getchar`, up to the next place where an interrupt can come: the line status, the modem status
and the data are what it reads from the port. -/
def getchar (flowIgnore lsr msr data : UInt8) (st : State) : State :=
  match st.reader with
  | .again =>
    if st.serialTail ≠ st.serialHead then { st with reader := .serialQueued st.serialTail }
    else if lsr &&& 1 = 0 then st
    else if msr &&& flowIgnore ≠ flowIgnore then st
    else { st with out := st.out ++ [data] }
  | .serialQueued bx => { st with reader := .loaded bx (st.mem bx) }
  | .loaded bx al =>
    { st with
      serialTail := (bx + 1) &&& (serialBufSize - 1)
      reader := .again
      out := st.out ++ [al] }

/-- What happens next. -/
inductive Event
  | irq (lsr : UInt8) (burst : List (UInt8 × UInt8))
  | getchar (lsr msr data : UInt8)

def step (flowIgnore : UInt8) (st : State) : Event → State
  | .irq lsr burst => irqCommon flowIgnore lsr burst st
  | .getchar lsr msr data => getchar flowIgnore lsr msr data st

/-- An empty buffer, before the first interrupt. -/
def initial (mem : Nat → UInt8) : State := ⟨mem, 0, 0, .again, []⟩

/-! ## What is received -/

/-- The bytes that were read from the port, and those that were accepted. -/
structure History where
  received : List UInt8
  accepted : List UInt8

/-- A byte is accepted when its line status matches and fewer than `serial_buf_size - 1` bytes are
accepted and not read yet. -/
def receive (flowIgnore : UInt8) (taken : Nat) (h : History) (byte lsr : UInt8) : History :=
  ⟨h.received ++ [byte],
    if lsr &&& flowIgnore = flowIgnore ∧ h.accepted.length < taken + (serialBufSize - 1) then
      h.accepted ++ [byte]
    else h.accepted⟩

/-- The bytes of an interrupt. -/
def receiveBurst (flowIgnore : UInt8) (taken : Nat) : List (UInt8 × UInt8) → History → History
  | [], h => h
  | (byte, lsr) :: rest, h =>
    let h := receive flowIgnore taken h byte lsr
    if lsr &&& 1 ≠ 0 then receiveBurst flowIgnore taken rest h else h

/-- `getchar` reads a byte from the port itself. -/
def ReadsPort (flowIgnore lsr msr : UInt8) (st : State) : Prop :=
  st.reader = .again ∧ st.serialTail = st.serialHead ∧ lsr &&& 1 ≠ 0 ∧
    msr &&& flowIgnore = flowIgnore

instance (flowIgnore lsr msr : UInt8) (st : State) : Decidable (ReadsPort flowIgnore lsr msr st) :=
  inferInstanceAs (Decidable (_ ∧ _))

/-- What an event adds. -/
def record (flowIgnore : UInt8) (st : State) (h : History) : Event → History
  | .irq lsr burst =>
    if lsr &&& 1 ≠ 0 then receiveBurst flowIgnore st.out.length burst h else h
  | .getchar lsr msr data =>
    if ReadsPort flowIgnore lsr msr st then ⟨h.received ++ [data], h.accepted ++ [data]⟩ else h

/-- A run from a state, and what it receives. -/
def run (flowIgnore : UInt8) : List Event → State → History → State × History
  | [], st, h => (st, h)
  | ev :: evs, st, h => run flowIgnore evs (step flowIgnore st ev) (record flowIgnore st h ev)

/-! ## Bursts that do no harm -/

/-- What an interrupt reads behind a byte that did not match does not match either, and none of it
is stored in a slot in use. -/
def Rejected (flowIgnore : UInt8) (head tail : Nat) : List (UInt8 × UInt8) → Nat → Prop
  | [], _ => True
  | (_, lsr) :: rest, di =>
    ¬ Used serialBufSize head tail di ∧ lsr &&& flowIgnore ≠ flowIgnore ∧
      (lsr &&& 1 ≠ 0 → Rejected flowIgnore head tail rest ((di + 1) % 0x10000))

/-- No byte follows one for which there is no room, and only such bytes as do no harm follow one
that does not match. -/
def Orderly (flowIgnore : UInt8) (tail : Nat) : List (UInt8 × UInt8) → Nat → Prop
  | [], _ => True
  | (_, lsr) :: rest, head =>
    lsr &&& 1 ≠ 0 →
      if lsr &&& flowIgnore ≠ flowIgnore then
        Rejected flowIgnore head tail rest ((head + 1) % 0x10000)
      else
        next serialBufSize head ≠ tail ∧ Orderly flowIgnore tail rest (next serialBufSize head)

/-- An event that does no harm. -/
def OrderlyEvent (flowIgnore : UInt8) (st : State) : Event → Prop
  | .irq lsr burst => lsr &&& 1 ≠ 0 → Orderly flowIgnore st.serialTail burst st.serialHead
  | .getchar _ _ _ => True

/-- All events of a run do no harm. -/
def OrderlyRun (flowIgnore : UInt8) : List Event → State → Prop
  | [], _ => True
  | ev :: evs, st =>
    OrderlyEvent flowIgnore st ev ∧ OrderlyRun flowIgnore evs (step flowIgnore st ev)

/-! ## The invariant -/

/-- The bytes in the buffer. -/
def unread (st : State) : List UInt8 := contents serialBufSize st.mem st.serialHead st.serialTail

/-- What `getchar` holds is the first byte of the buffer. -/
def ReaderOk (st : State) : Prop :=
  match st.reader with
  | .again => True
  | .serialQueued bx => bx = st.serialTail ∧ st.serialTail ≠ st.serialHead
  | .loaded bx al => bx = st.serialTail ∧ st.serialTail ≠ st.serialHead ∧ al = st.mem bx

/-- The places are in the buffer, and what was accepted was returned or is in the buffer. -/
structure Consistent (st : State) (h : History) : Prop where
  head_lt : st.serialHead < serialBufSize
  tail_lt : st.serialTail < serialBufSize
  reader : ReaderOk st
  accepted : h.accepted = st.out ++ unread st
  sublist : h.accepted.Sublist h.received

variable {flowIgnore lsr al : UInt8} {st : State} {h h' : History} {rest burst : List (UInt8 × UInt8)}

theorem serialBufSize_pos : 0 < serialBufSize := by decide

/-- The mask takes an index modulo the size of the ring. -/
theorem and_serialBufSize (a : Nat) : a &&& (serialBufSize - 1) = a % serialBufSize :=
  Nat.and_two_pow_sub_one_eq_mod a 12

/-- The mask takes a place to the next slot. -/
theorem mask_succ {a : Nat} (ha : a < serialBufSize) :
    (a + 1) &&& (serialBufSize - 1) = next serialBufSize a := by
  rw [and_serialBufSize, next]
  split_ifs with hlast
  · exact Nat.mod_eq_of_lt hlast
  · have hsize : a + 1 = serialBufSize := by omega
    rw [hsize, Nat.mod_self]

/-- An index into the ring goes on without a carry. -/
theorem succ_word {a : Nat} (ha : a < serialBufSize) : (a + 1) % 0x10000 = a + 1 := by
  rw [serialBufSize] at ha
  omega

/-- The tail is in use when it is not the head. -/
theorem used_tail {head tail : Nat} (hhead : head < serialBufSize) (htail : tail < serialBufSize)
    (hne : tail ≠ head) : Used serialBufSize head tail tail := by
  refine ⟨0, ?_, slot_zero htail⟩
  have hcount := count_next_tail hhead htail hne
  omega

/-! ## One byte -/

/-- A byte with the wrong modem status moves `DI` on and is kept by none. -/
theorem irqLoop_reject {di : Nat} (hbad : lsr &&& flowIgnore ≠ flowIgnore) :
    irqLoop flowIgnore ((al, lsr) :: rest) di st =
      if lsr &&& 1 ≠ 0 then
        irqLoop flowIgnore rest ((di + 1) % 0x10000) { st with mem := put st.mem di al }
      else { st with mem := put st.mem di al } := by
  rw [irqLoop]
  dsimp only
  rw [if_pos hbad]

/-- A byte for a full ring is stored, and the next one goes to the tail. -/
theorem irqLoop_full {di : Nat} (hok : lsr &&& flowIgnore = flowIgnore) (hdi : di < serialBufSize)
    (hfull : next serialBufSize di = st.serialTail) :
    irqLoop flowIgnore ((al, lsr) :: rest) di st =
      if lsr &&& 1 ≠ 0 then
        irqLoop flowIgnore rest st.serialTail { st with mem := put st.mem di al }
      else { st with mem := put st.mem di al } := by
  rw [irqLoop]
  dsimp only
  rw [if_neg (not_not.mpr hok), succ_word hdi, mask_succ hdi, hfull, if_pos rfl]

/-- A byte for which there is room is stored and accepted. -/
theorem irqLoop_accept {di : Nat} (hok : lsr &&& flowIgnore = flowIgnore)
    (hdi : di < serialBufSize) (hroom : next serialBufSize di ≠ st.serialTail) :
    irqLoop flowIgnore ((al, lsr) :: rest) di st =
      if lsr &&& 1 ≠ 0 then
        irqLoop flowIgnore rest (next serialBufSize di)
          { st with mem := put st.mem di al, serialHead := next serialBufSize di }
      else { st with mem := put st.mem di al, serialHead := next serialBufSize di } := by
  rw [irqLoop]
  dsimp only
  rw [if_neg (not_not.mpr hok), succ_word hdi, mask_succ hdi, if_neg hroom]

/-- A store to a slot that is not in use keeps what is accepted. -/
theorem Consistent.frame (hc : Consistent st h) {mem' : Nat → UInt8}
    (hmem : ∀ a, Used serialBufSize st.serialHead st.serialTail a → mem' a = st.mem a)
    (haccepted : h'.accepted = h.accepted) (hreceived : h.received.Sublist h'.received) :
    Consistent { st with mem := mem' } h' := by
  refine ⟨hc.head_lt, hc.tail_lt, ?_, ?_, ?_⟩
  · have hreader := hc.reader
    unfold ReaderOk at hreader ⊢
    dsimp only
    cases hr : st.reader with
    | again => trivial
    | serialQueued bx =>
      rw [hr] at hreader
      exact hreader
    | loaded bx al =>
      rw [hr] at hreader
      obtain ⟨hbx, hne, hal⟩ := hreader
      refine ⟨hbx, hne, hal.trans (hmem bx ?_).symm⟩
      rw [hbx]
      exact used_tail hc.head_lt hc.tail_lt hne
  · rw [haccepted, hc.accepted]
    exact congrArg (st.out ++ ·) (contents_congr hmem).symm
  · rw [haccepted]
    exact hc.sublist.trans hreceived

/-- A store to the head is to a slot that is not in use. -/
theorem Consistent.put_head (hc : Consistent st h) (b : UInt8) (a : Nat)
    (ha : Used serialBufSize st.serialHead st.serialTail a) :
    put st.mem st.serialHead b a = st.mem a := by
  refine put_of_ne b ?_
  rintro rfl
  exact not_used_head hc.tail_lt ha

/-- There is room exactly when the next slot is not the tail. -/
theorem Consistent.room_iff (hc : Consistent st h) :
    h.accepted.length < st.out.length + (serialBufSize - 1) ↔
      next serialBufSize st.serialHead ≠ st.serialTail := by
  rw [next_ne_iff hc.head_lt hc.tail_lt, hc.accepted, List.length_append, unread, length_contents]
  have hpos := serialBufSize_pos
  omega

/-- A byte that is accepted comes behind the others. -/
theorem Consistent.accept (hc : Consistent st h) (b : UInt8)
    (hok : lsr &&& flowIgnore = flowIgnore)
    (hroom : next serialBufSize st.serialHead ≠ st.serialTail) :
    Consistent { st with mem := put st.mem st.serialHead b,
                         serialHead := next serialBufSize st.serialHead }
      (receive flowIgnore st.out.length h b lsr) := by
  have haccepted : (receive flowIgnore st.out.length h b lsr).accepted = h.accepted ++ [b] :=
    if_pos ⟨hok, hc.room_iff.mpr hroom⟩
  refine ⟨next_lt serialBufSize_pos, hc.tail_lt, ?_, ?_, ?_⟩
  · have hreader := hc.reader
    unfold ReaderOk at hreader ⊢
    dsimp only
    cases hr : st.reader with
    | again => trivial
    | serialQueued bx =>
      rw [hr] at hreader
      exact ⟨hreader.1, hroom.symm⟩
    | loaded bx al =>
      rw [hr] at hreader
      obtain ⟨hbx, hne, hal⟩ := hreader
      refine ⟨hbx, hroom.symm, hal.trans (hc.put_head b bx ?_).symm⟩
      rw [hbx]
      exact used_tail hc.head_lt hc.tail_lt hne
  · rw [haccepted, hc.accepted, List.append_assoc]
    exact congrArg (st.out ++ ·) (contents_push hc.head_lt hc.tail_lt hroom b).symm
  · rw [haccepted]
    exact hc.sublist.append (List.Sublist.refl [b])

/-- A byte that is dropped changes the head's slot only. -/
theorem Consistent.drop (hc : Consistent st h) (b : UInt8)
    (hdrop : ¬ (lsr &&& flowIgnore = flowIgnore ∧
      next serialBufSize st.serialHead ≠ st.serialTail)) :
    Consistent { st with mem := put st.mem st.serialHead b }
      (receive flowIgnore st.out.length h b lsr) := by
  refine hc.frame (hc.put_head b) (if_neg ?_) (List.sublist_append_left h.received [b])
  rw [hc.room_iff]
  exact hdrop

/-! ## Interrupts -/

/-- A burst that is rejected whole stores nothing over an unread byte. -/
theorem irqLoop_rejected {head tail di : Nat} (hrej : Rejected flowIgnore head tail burst di) :
    ∃ mem', irqLoop flowIgnore burst di st = { st with mem := mem' } ∧
      ∀ a, Used serialBufSize head tail a → mem' a = st.mem a := by
  induction burst generalizing di st with
  | nil => exact ⟨st.mem, rfl, fun _ _ => rfl⟩
  | cons x rest ih =>
    obtain ⟨al, lsr⟩ := x
    obtain ⟨hfree, hbad, hrest⟩ := hrej
    have hput : ∀ a, Used serialBufSize head tail a → put st.mem di al a = st.mem a := by
      intro a ha
      refine put_of_ne al ?_
      rintro rfl
      exact hfree ha
    rw [irqLoop_reject hbad]
    by_cases hmore : lsr &&& 1 ≠ 0
    · obtain ⟨mem', hloop, hmem⟩ := @ih { st with mem := put st.mem di al } _ (hrest hmore)
      rw [if_pos hmore]
      exact ⟨mem', hloop, fun a ha => (hmem a ha).trans (hput a ha)⟩
    · rw [if_neg hmore]
      exact ⟨_, rfl, hput⟩

/-- A burst that is rejected adds nothing to the accepted bytes. -/
theorem receiveBurst_rejected {head tail di taken : Nat}
    (hrej : Rejected flowIgnore head tail burst di) :
    (receiveBurst flowIgnore taken burst h).accepted = h.accepted ∧
      h.received.Sublist (receiveBurst flowIgnore taken burst h).received := by
  induction burst generalizing di h with
  | nil => exact ⟨rfl, List.Sublist.refl _⟩
  | cons x rest ih =>
    obtain ⟨byte, lsr⟩ := x
    obtain ⟨-, hbad, hrest⟩ := hrej
    have haccepted : (receive flowIgnore taken h byte lsr).accepted = h.accepted :=
      if_neg fun hok => hbad hok.1
    have hreceived : h.received.Sublist (receive flowIgnore taken h byte lsr).received :=
      List.sublist_append_left h.received [byte]
    rw [receiveBurst]
    by_cases hmore : lsr &&& 1 ≠ 0
    · obtain ⟨hacc, hrec⟩ := @ih (receive flowIgnore taken h byte lsr) _ (hrest hmore)
      rw [if_pos hmore]
      exact ⟨hacc.trans haccepted, hreceived.trans hrec⟩
    · rw [if_neg hmore]
      exact ⟨haccepted, hreceived⟩

/-- A burst that does no harm is received. -/
theorem Consistent.irqLoop (hc : Consistent st h)
    (hord : Orderly flowIgnore st.serialTail burst st.serialHead) :
    Consistent (irqLoop flowIgnore burst st.serialHead st)
      (receiveBurst flowIgnore st.out.length burst h) := by
  induction burst generalizing st h with
  | nil => exact hc
  | cons x rest ih =>
    obtain ⟨al, lsr⟩ := x
    rw [Orderly] at hord
    rw [receiveBurst]
    by_cases hok : lsr &&& flowIgnore = flowIgnore
    · by_cases hroom : next serialBufSize st.serialHead ≠ st.serialTail
      · have haccept := hc.accept al hok hroom
        rw [irqLoop_accept hok hc.head_lt hroom]
        by_cases hmore : lsr &&& 1 ≠ 0
        · have hrest := hord hmore
          rw [if_neg (not_not.mpr hok)] at hrest
          rw [if_pos hmore, if_pos hmore]
          exact ih haccept hrest.2
        · rw [if_neg hmore, if_neg hmore]
          exact haccept
      · have hlast : ¬ lsr &&& 1 ≠ 0 := by
          intro hmore
          have hrest := hord hmore
          rw [if_neg (not_not.mpr hok)] at hrest
          exact hroom hrest.1
        rw [irqLoop_full hok hc.head_lt (not_not.mp hroom), if_neg hlast, if_neg hlast]
        exact hc.drop al fun hboth => hroom hboth.2
    · have hdrop := hc.drop al fun hboth => hok hboth.1
      rw [irqLoop_reject hok]
      by_cases hmore : lsr &&& 1 ≠ 0
      · have hrest := hord hmore
        rw [if_pos hok] at hrest
        obtain ⟨mem', hloop, hmem⟩ :=
          @irqLoop_rejected _ { st with mem := put st.mem st.serialHead al } _ _ _ _ hrest
        obtain ⟨hacc, hrec⟩ := @receiveBurst_rejected _
          (receive flowIgnore st.out.length h al lsr) _ _ _ _ st.out.length hrest
        rw [if_pos hmore, if_pos hmore, hloop]
        exact hdrop.frame hmem hacc hrec
      · rw [if_neg hmore, if_neg hmore]
        exact hdrop

/-! ## Reading -/

/-- `getchar` takes what it returns from the front of the buffer, or from the port when the buffer
is empty. -/
theorem Consistent.getchar (hc : Consistent st h) (lsr msr data : UInt8) :
    Consistent (getchar flowIgnore lsr msr data st)
      (record flowIgnore st h (.getchar lsr msr data)) := by
  have hreader := hc.reader
  unfold ReaderOk at hreader
  rw [Console.getchar, record]
  cases hr : st.reader with
  | again =>
    dsimp only
    by_cases hne : st.serialTail ≠ st.serialHead
    · rw [if_pos hne, if_neg fun hport : ReadsPort _ _ _ _ => hne hport.2.1]
      exact ⟨hc.head_lt, hc.tail_lt, ⟨rfl, hne⟩, hc.accepted, hc.sublist⟩
    · rw [if_neg hne]
      have hempty : st.serialTail = st.serialHead := not_not.mp hne
      by_cases hdata : lsr &&& 1 = 0
      · rw [if_pos hdata, if_neg fun hport : ReadsPort _ _ _ _ => hport.2.2.1 hdata]
        exact hc
      · by_cases hflow : msr &&& flowIgnore = flowIgnore
        · rw [if_neg hdata, if_neg (not_not.mpr hflow), if_pos ⟨hr, hempty, hdata, hflow⟩]
          refine ⟨hc.head_lt, hc.tail_lt, trivial, ?_, hc.sublist.append (List.Sublist.refl _)⟩
          have hnil : unread st = [] := by rw [unread, hempty, contents_self]
          rw [hc.accepted, hnil, List.append_nil]
          exact (List.append_nil _).symm.trans (congrArg _ hnil.symm)
        · rw [if_neg hdata, if_pos hflow, if_neg fun hport : ReadsPort _ _ _ _ => hflow hport.2.2.2]
          exact hc
  | serialQueued bx =>
    rw [hr] at hreader
    rw [if_neg fun hport : ReadsPort _ _ _ _ => nomatch hr.symm.trans hport.1]
    exact ⟨hc.head_lt, hc.tail_lt, ⟨hreader.1, hreader.2, rfl⟩, hc.accepted, hc.sublist⟩
  | loaded bx al =>
    rw [hr] at hreader
    obtain ⟨rfl, hne, rfl⟩ := hreader
    rw [if_neg fun hport : ReadsPort _ _ _ _ => nomatch hr.symm.trans hport.1]
    dsimp only
    rw [mask_succ hc.tail_lt]
    refine ⟨hc.head_lt, next_lt serialBufSize_pos, trivial, ?_, hc.sublist⟩
    rw [hc.accepted, unread, contents_pop hc.head_lt hc.tail_lt hne, unread, List.append_assoc]
    rfl

/-! ## Runs -/

/-- An event that does no harm is recorded. -/
theorem Consistent.step (hc : Consistent st h) {ev : Event} (hord : OrderlyEvent flowIgnore st ev) :
    Consistent (step flowIgnore st ev) (record flowIgnore st h ev) := by
  cases ev with
  | irq lsr burst =>
    rw [Console.step, irqCommon, record]
    by_cases hdata : lsr &&& 1 ≠ 0
    · rw [if_pos hdata, if_pos hdata]
      exact hc.irqLoop (hord hdata)
    · rw [if_neg hdata, if_neg hdata]
      exact hc
  | getchar lsr msr data => exact hc.getchar lsr msr data

/-- An orderly run keeps the pointers consistent with what was accepted. -/
theorem Consistent.run (hc : Consistent st h) {events : List Event}
    (hord : OrderlyRun flowIgnore events st) :
    Consistent (run flowIgnore events st h).1 (run flowIgnore events st h).2 := by
  induction events generalizing st h with
  | nil => exact hc
  | cons ev evs ih => exact ih (hc.step hord.1) hord.2

/-- The ring is consistent before the first event. -/
theorem consistent_initial (mem : Nat → UInt8) : Consistent (initial mem) ⟨[], []⟩ := by
  refine ⟨serialBufSize_pos, serialBufSize_pos, trivial, ?_, List.Sublist.refl _⟩
  rw [unread, initial, contents_self]
  rfl

/-- In every run of interrupts that do no harm and reads, what was accepted was returned in its
order, and the rest of it is in the buffer. -/
theorem serial_reads_accepted (flowIgnore : UInt8) (mem : Nat → UInt8) (events : List Event)
    (hord : OrderlyRun flowIgnore events (initial mem)) :
    ∃ st h, run flowIgnore events (initial mem) ⟨[], []⟩ = (st, h) ∧
      h.accepted = st.out ++ unread st ∧ h.accepted.Sublist h.received ∧
      st.serialHead < serialBufSize ∧ st.serialTail < serialBufSize := by
  have hc := (consistent_initial mem).run hord
  exact ⟨_, _, rfl, hc.accepted, hc.sublist, hc.head_lt, hc.tail_lt⟩

/-- A byte, one that does not match with nothing behind it, and a byte that is read. -/
def orderlyEvents : List Event :=
  [.irq 0x11 [(0x61, 0x11), (0x62, 0x00)], .getchar 0 0 0, .getchar 0 0 0, .getchar 0 0 0]

/-- A run with a burst and two reads. -/
theorem serial_reads_accepted_orderly :
    ∃ st h, run 0x10 orderlyEvents (initial fun _ => 0) ⟨[], []⟩ = (st, h) ∧
      h.accepted = st.out ++ unread st ∧ h.accepted.Sublist h.received ∧
      st.serialHead < serialBufSize ∧ st.serialTail < serialBufSize := by
  refine serial_reads_accepted 0x10 (fun _ => 0) orderlyEvents ⟨fun _ _ => ?_, trivial, trivial,
    trivial, trivial⟩
  exact ⟨by decide, fun hmore => absurd rfl hmore⟩

/-- A byte that does not match is returned when one that matches follows it. -/
theorem serial_reads_rejected :
    ¬ ∀ (flowIgnore : UInt8) (mem : Nat → UInt8) (events : List Event) (st : State) (h : History),
      run flowIgnore events (initial mem) ⟨[], []⟩ = (st, h) → h.accepted = st.out ++ unread st := by
  intro h
  have hsame := h 0x10 (fun _ => 0)
    [.irq 0x01 [(0x61, 0x01), (0x62, 0x10)], .getchar 0 0 0, .getchar 0 0 0, .getchar 0 0 0] _ _ rfl
  exact absurd hsame (by decide)

end Liigboot.Console
