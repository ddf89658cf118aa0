import Liigboot.Adv.Verify
import Liigboot.Lib.Loop

/-!
# The bounds of the auxiliary data vector

`adv_get` and `adv_set` go from tag to tag by lengths that come from the data area. The loops as
steps, with the bytes that each pass touches, and the zeros that `adv_set` writes last: their count
is what lies between the new data and the tail. When the last tag runs past the tail and the new
data are empty, the new data end behind the tail, and the count is taken modulo 65536.
-/

namespace Liigboot.Adv

/-! ## The source -/

/-- `adv0.end`. -/
def adv0End : Nat := adv0Tail + 4

/-- A pass of the loop of `adv_get`, from `SI` at `.loop`. It stops with `CX` and `SI`. -/
def getStep (mem : Mem) (dl : UInt8) (si : Nat) : Step Nat (Nat × Nat) :=
  let al := mem si
  if al = dl then
    let cx := (mem (si + 1)).toNat
    let si := si + 2
    .stop (if cx + si ≤ adv0Tail then (cx, si) else (0, si))
  else if al = 0 then .stop (0, si + 1)
  else
    let si := si + 2 + (mem (si + 1)).toNat
    if si < adv0Tail then .next si else .stop (0, si)

/-- Memory, and `SI` at `.loop` or at `.end`. -/
structure Scan where
  mem : Mem
  si : Nat

/-- A pass of the loop of `adv_set`. It stops with memory and `SI` at `.end`. -/
def setStep (dl : UInt8) (s : Scan) : Step Scan Scan :=
  let al := s.mem s.si
  if al = dl then
    let di := s.si
    let si := s.si + 2 + (s.mem (s.si + 1)).toNat
    if adv0Tail < si then .stop { s with si := di }
    else
      let cx := adv0Tail - si
      .next { mem := put (repMovsb s.mem cx si di) (di + cx) 0, si := di }
  else if al = 0 then .stop s
  else
    let si := s.si + 2 + (s.mem (s.si + 1)).toNat
    if si < adv0Tail then .next { s with si } else .stop { s with si }

/-- `DI` at `.empty`, the end of the new data. There is none when they do not fit. -/
def newEnd (value : List UInt8) (si : Nat) : Option Nat :=
  let cx := value.length
  if cx = 0 then some si
  else if si + cx ≥ adv0Tail - 2 then none
  else some (si + 2 + cx)

/-- A pass of either loop reads an address: the id, and the length where the id does not end the
list. -/
def Reads (mem : Mem) (dl : UInt8) (si a : Nat) : Prop :=
  a = si ∨ a = si + 1 ∧ (mem si = dl ∨ mem si ≠ 0)

/-- A pass of the loop of `adv_set` touches an address: it reads it, or moves it, or moves to it, or
writes the zero there. -/
def SetTouches (dl : UInt8) (s : Scan) (a : Nat) : Prop :=
  Reads s.mem dl s.si a ∨
    s.mem s.si = dl ∧ s.si + 2 + (s.mem (s.si + 1)).toNat ≤ adv0Tail ∧
      (s.si + 2 + (s.mem (s.si + 1)).toNat ≤ a ∧ a < adv0Tail ∨
        s.si ≤ a ∧ a ≤ s.si + (adv0Tail - (s.si + 2 + (s.mem (s.si + 1)).toNat)))

/-- Behind its loop `adv_set` writes an address: the new tag, and the zeros. -/
def FinishTouches (value : List UInt8) (si a : Nat) : Prop :=
  ∃ di, newEnd value si = some di ∧ si ≤ a ∧ a < di + (adv0Tail + 0x10000 - di) % 0x10000

/-- `adv_get` stays inside the vector: its scan does not go past the tail, what it reads is in the
vector, and so is what it finds. -/
structure GetStays (mem : Mem) (dl : UInt8) : Prop where
  scan : ∀ si, Reaches (getStep mem dl) adv0Data si → si ≤ adv0Tail
  reads : ∀ si, Reaches (getStep mem dl) adv0Data si → ∀ a, Reads mem dl si a → a < adv0End
  found : ∀ si cx si', Reaches (getStep mem dl) adv0Data si →
    getStep mem dl si = .stop (cx, si') → cx = 0 ∨ cx + si' ≤ adv0Tail

/-- `adv_set` stays inside the vector, if the length of the value passes its test: its scan does not
go past the tail, what it touches is in the vector, and the new data end at the tail at most. -/
structure SetStays (mem : Mem) (dl : UInt8) (value : List UInt8) : Prop where
  scan : value.length < 0x100 → ∀ s, Reaches (setStep dl) ⟨mem, adv0Data⟩ s → s.si ≤ adv0Tail
  touches : value.length < 0x100 → ∀ s, Reaches (setStep dl) ⟨mem, adv0Data⟩ s →
    ∀ a, SetTouches dl s a → a < adv0End
  fill : value.length < 0x100 → ∀ s t, Reaches (setStep dl) ⟨mem, adv0Data⟩ s →
    setStep dl s = .stop t → ∀ di, newEnd value t.si = some di → di ≤ adv0Tail
  finish : value.length < 0x100 → ∀ s t, Reaches (setStep dl) ⟨mem, adv0Data⟩ s →
    setStep dl s = .stop t → ∀ a, FinishTouches value t.si a → a < adv0End

variable {mem : Mem} {dl id t : UInt8} {s u : Scan} {value : List UInt8} {a si : Nat}

/-- The loop of `adv_get` is made of its passes: the accesses of a call are those of the passes that
it reaches. -/
theorem advGetLoop_eq (steps si : Nat) :
    advGetLoop mem dl steps si = runLoop (getStep mem dl) steps si := by
  induction steps generalizing si with
  | zero => rfl
  | succ steps ih =>
    simp only [advGetLoop, runLoop, getStep]
    split_ifs <;> simp [ih]

/-- The loop of `adv_set` is made of its passes, as that of `adv_get` is. -/
theorem advSetLoop_eq (steps : Nat) (s : Scan) :
    advSetLoop dl steps s.mem s.si =
      (runLoop (setStep dl) steps s).map fun s => (s.mem, s.si) := by
  induction steps generalizing s with
  | zero => rfl
  | succ steps ih =>
    simp only [advSetLoop, runLoop, setStep]
    split_ifs <;> simp [← ih]

/-! ## What stays in bounds -/

/-- A pass of `adv_get` that goes on goes to a place in front of the tail. -/
theorem getStep_next {si' : Nat} (h : getStep mem dl si = .next si') : si' < adv0Tail := by
  simp only [getStep] at h
  split_ifs at h with _ _ hlt
  cases h
  exact hlt

/-- What is read in front of the tail is in the vector. -/
theorem reads_lt (h : si < adv0Tail) (ha : Reads mem dl si a) : a < adv0End := by
  simp only [Reads] at ha
  simp only [adv0End]
  omega

/-- The data begin in front of the tail. -/
theorem adv0Data_lt : adv0Data < adv0Tail := by decide

/-- `adv_get` stays inside the vector, whatever the data are. -/
theorem getStays (mem : Mem) (dl : UInt8) : GetStays mem dl := by
  have hscan : ∀ si, Reaches (getStep mem dl) adv0Data si → si < adv0Tail := fun si h =>
    h.inv adv0Data_lt fun _ _ _ hnext => getStep_next hnext
  refine ⟨fun si h => (hscan si h).le, fun si h a ha => reads_lt (hscan si h) ha, ?_⟩
  intro si cx si' _ hstop
  simp only [getStep] at hstop
  split_ifs at hstop with _ hfits
  all_goals
    cases hstop
    first
    | exact Or.inl rfl
    | exact Or.inr hfits

/-- A pass of `adv_set` that goes on goes to a place in front of the tail. -/
theorem setStep_next (h : setStep dl s = .next u) (hs : s.si < adv0Tail) : u.si < adv0Tail := by
  simp only [setStep] at h
  split_ifs at h with _ _ _ hlt
  · cases h
    exact hs
  · cases h
    exact hlt

/-- The scan of `adv_set` stays in front of the tail. -/
theorem setReach_lt (h : Reaches (setStep dl) ⟨mem, adv0Data⟩ s) : s.si < adv0Tail :=
  h.inv adv0Data_lt fun _ _ hs hnext => setStep_next hnext hs

/-- What it touches there is in the vector. -/
theorem setTouches_lt (h : s.si < adv0Tail) (ha : SetTouches dl s a) : a < adv0End := by
  rcases ha with hread | ⟨-, hfits, hmoved⟩
  · exact reads_lt h hread
  · simp only [adv0End]
    omega

/-- The end of new data that are not empty is in front of the tail. -/
theorem newEnd_lt {di : Nat} (hvalue : value ≠ []) (h : newEnd value si = some di) :
    di < adv0Tail := by
  have hlen : value.length ≠ 0 := by simpa using hvalue
  simp only [newEnd, if_neg hlen] at h
  split_ifs at h with hroom
  have htail : 2 ≤ adv0Tail := by decide
  cases h
  omega

/-- The zeros end at the tail if the new data do not end behind it. -/
theorem finishTouches_lt {di : Nat} (h : newEnd value si = some di) (hdi : di ≤ adv0Tail)
    (ha : FinishTouches value si a) : a < adv0End := by
  obtain ⟨di', hdi', -, ha⟩ := ha
  rw [h] at hdi'
  cases hdi'
  have htail : adv0Tail < 0x10000 := by decide
  have hcount : (adv0Tail + 0x10000 - di) % 0x10000 ≤ adv0Tail - di := by omega
  simp only [adv0End]
  omega

/-! ## What is left alone -/

/-- A pass of `adv_set` changes only what it touches. -/
theorem setStep_frame (h : ¬ SetTouches dl s a)
    (hstep : setStep dl s = .next u ∨ setStep dl s = .stop u) : u.mem a = s.mem a := by
  simp only [setStep] at hstep
  split_ifs at hstep with hid hlong
  · cases hstep.resolve_left nofun
    rfl
  · cases hstep.resolve_right nofun
    have hout : ¬ (s.si ≤ a ∧
        a ≤ s.si + (adv0Tail - (s.si + 2 + (s.mem (s.si + 1)).toNat))) := fun hmoved =>
      h (Or.inr ⟨hid, Nat.not_lt.mp hlong, Or.inr hmoved⟩)
    dsimp only
    rw [put_of_ne _ (by omega), repMovsb_eq (Or.inl (by omega)), if_neg (by omega)]
  · cases hstep.resolve_left nofun
    rfl
  · cases hstep.resolve_right nofun
    rfl
  · cases hstep.resolve_left nofun
    rfl

/-- What no pass touches is left alone. -/
theorem setReach_frame {s₀ : Scan} (h : Reaches (setStep dl) s₀ s)
    (hfree : ∀ t, Reaches (setStep dl) s₀ t → ¬ SetTouches dl t a) : s.mem a = s₀.mem a := by
  induction h with
  | start => rfl
  | next hreach hnext ih => rw [setStep_frame (hfree _ hreach) (Or.inl hnext), ih]

/-- When `adv_set` stays inside the vector, memory behind the vector is as before: what the call
writes is what its passes and its end are said to touch. -/
theorem advSet_frame {mem' : Mem} {cf : Bool} (h : SetStays mem dl value)
    (hset : advSet mem dl value = some (cf, mem')) (ha : adv0End ≤ a) : mem' a = mem a := by
  rw [advSet] at hset
  split_ifs at hset with hlong
  · cases hset
    rfl
  · have hlen : value.length < 0x100 := Nat.not_le.mp hlong
    have heq := @advSetLoop_eq dl advLen ⟨mem, adv0Data⟩
    dsimp only at heq
    rw [heq] at hset
    cases hrun : runLoop (setStep dl) advLen ⟨mem, adv0Data⟩ with
    | none =>
      rw [hrun] at hset
      cases hset
    | some t =>
      obtain ⟨s, hreach, hstop⟩ := runLoop_reaches hrun
      have hfree : ∀ t, Reaches (setStep dl) ⟨mem, adv0Data⟩ t → ¬ SetTouches dl t a :=
        fun t ht htouch => (h.touches hlen t ht a htouch).not_ge ha
      have hloop : t.mem a = mem a :=
        (setStep_frame (hfree s hreach) (Or.inr hstop)).trans (setReach_frame hreach hfree)
      have hfinish : ∀ di, newEnd value t.si = some di → t.si ≤ a →
          ¬ a < di + (adv0Tail + 0x10000 - di) % 0x10000 := fun di hdi hle hlt =>
        (h.finish hlen s t hreach hstop a ⟨di, hdi, hle, hlt⟩).not_ge ha
      have hfill := h.fill hlen s t hreach hstop
      rw [hrun] at hset
      simp only [Option.map_some] at hset
      have htail : a ≠ adv0Tail := by
        simp only [adv0End] at ha
        omega
      simp only [newEnd] at hfinish hfill
      split_ifs at hset hfinish hfill with hempty hroom
      · cases hset
        rw [zeroFill, repStosb_eq, if_neg fun hin => hfinish _ rfl hin.1 hin.2, hloop]
      · cases hset
        exact hloop
      · cases hset
        have hdi := hfill _ rfl
        simp only [adv0End] at ha
        rw [zeroFill, repStosb_eq, if_neg fun hin => hfinish _ rfl (by omega) hin.2,
          repMovsbFrom_of_ge (by omega), put_of_ne _ (by omega), put_of_ne _ (by omega), hloop]

/-! ## A tag that runs past the tail -/

/-- A scan for an id runs past the end of an area: a tag that it passes over ends behind the area. A
tag with the id is taken out: what follows it comes to its place, and a zero behind that. -/
inductive Overruns (id : UInt8) : List UInt8 → Prop where
  | single {t : UInt8} : t ≠ id → t ≠ 0 → Overruns id [t]
  | long {t len : UInt8} {rest : List UInt8} : t ≠ id → t ≠ 0 → rest.length < len.toNat →
      Overruns id (t :: len :: rest)
  | behind {t len : UInt8} {rest : List UInt8} : t ≠ id → t ≠ 0 →
      Overruns id (rest.drop len.toNat) → Overruns id (t :: len :: rest)
  | removed {len : UInt8} {rest : List UInt8} : len.toNat ≤ rest.length →
      Overruns id (rest.drop len.toNat ++
        0 :: (id :: len :: rest).drop (rest.length - len.toNat + 1)) →
      Overruns id (id :: len :: rest)

/-- The bytes from an address up to the tail. -/
def area (mem : Mem) (a : Nat) : List UInt8 :=
  (List.range (adv0Tail - a)).map fun i => mem (a + i)

theorem length_area (mem : Mem) (a : Nat) : (area mem a).length = adv0Tail - a := by
  simp [area]

theorem area_nil (h : adv0Tail ≤ a) : area mem a = [] := by
  simp [area, Nat.sub_eq_zero_of_le h]

/-- The bytes of an area are those of memory. -/
theorem area_getElem? (mem : Mem) (a i : Nat) :
    (area mem a)[i]? = if i < adv0Tail - a then some (mem (a + i)) else none := by
  rw [area, List.getElem?_map]
  split_ifs with hi
  · simp [hi]
  · simp [Nat.not_lt.mp hi]

/-- The first byte of an area, and the area behind it. -/
theorem area_cons (h : a < adv0Tail) : area mem a = mem a :: area mem (a + 1) := by
  refine List.ext_getElem? fun i => ?_
  cases i with
  | zero =>
    simp only [area_getElem?, if_pos (Nat.sub_pos_of_lt h), Nat.add_zero, List.getElem?_cons_zero]
  | succ i =>
    have hlt : i + 1 < adv0Tail - a ↔ i < adv0Tail - (a + 1) := by omega
    simp only [List.getElem?_cons_succ, area_getElem?, hlt, Nat.add_assoc, Nat.add_comm 1 i]

/-- An area without its first bytes is the one behind them. -/
theorem area_drop (mem : Mem) (a k : Nat) : (area mem a).drop k = area mem (a + k) := by
  refine List.ext_getElem? fun i => ?_
  have hlt : k + i < adv0Tail - a ↔ i < adv0Tail - (a + k) := by omega
  simp only [List.getElem?_drop, area_getElem?, hlt, Nat.add_assoc]

/-- A tag is taken out of an area. -/
theorem area_removed (h : a < si) (hsi : si ≤ adv0Tail) :
    area (put (repMovsb mem (adv0Tail - si) si a) (a + (adv0Tail - si)) 0) a =
      area mem si ++ 0 :: (area mem a).drop (adv0Tail - si + 1) := by
  refine List.ext_getElem? fun i => ?_
  rw [area_getElem?, List.getElem?_append, length_area]
  split_ifs with hi hfront hfront
  · rw [put_of_ne _ (by omega), repMovsb_eq (Or.inl h.le), if_pos (by omega), area_getElem?,
      if_pos hfront, Nat.add_sub_cancel_left]
  · obtain ⟨j, rfl⟩ := Nat.exists_eq_add_of_le (Nat.not_lt.mp hfront)
    rw [Nat.add_sub_cancel_left]
    cases j with
    | zero => simp [put_self]
    | succ j =>
      have hplace : adv0Tail - si + 1 + j = adv0Tail - si + (j + 1) := by omega
      rw [put_of_ne _ (by omega), repMovsb_eq (Or.inl h.le), if_neg (by omega),
        List.getElem?_cons_succ, area_drop, area_getElem?, if_pos (by omega), Nat.add_assoc, hplace]
  · omega
  · obtain ⟨j, rfl⟩ := Nat.exists_eq_add_of_le (Nat.not_lt.mp hfront)
    obtain ⟨j, rfl⟩ : ∃ k, j = k + 1 := ⟨j - 1, by omega⟩
    rw [Nat.add_sub_cancel_left, List.getElem?_cons_succ, area_drop, area_getElem?,
      if_neg (by omega)]

/-! ## One pass and the list -/

theorem not_overruns_nil : ¬ Overruns id [] := nofun

/-- A tag without a length is read over the end. -/
theorem overruns_single : Overruns id [t] ↔ t ≠ id ∧ t ≠ 0 := by
  refine ⟨fun h => ?_, fun h => .single h.1 h.2⟩
  cases h with
  | single hid hzero => exact ⟨hid, hzero⟩

theorem not_overruns_zero (h : 0 ≠ id) {rest : List UInt8} : ¬ Overruns id (0 :: rest) := by
  intro hrun
  cases hrun with
  | single _ hzero => exact hzero rfl
  | long _ hzero _ => exact hzero rfl
  | behind _ hzero _ => exact hzero rfl
  | removed => exact h rfl

/-- Behind another tag the scan goes on, if that ends in the area. -/
theorem overruns_other {len : UInt8} {rest : List UInt8} (hid : t ≠ id) (hzero : t ≠ 0) :
    Overruns id (t :: len :: rest) ↔
      rest.length < len.toNat ∨ Overruns id (rest.drop len.toNat) := by
  constructor
  · intro h
    cases h with
    | long _ _ hlen => exact Or.inl hlen
    | behind _ _ hrest => exact Or.inr hrest
    | removed => exact absurd rfl hid
  · rintro (hlen | hrest)
    · exact .long hid hzero hlen
    · exact .behind hid hzero hrest

theorem overruns_self {len : UInt8} {rest : List UInt8} :
    Overruns id (id :: len :: rest) ↔ len.toNat ≤ rest.length ∧
      Overruns id (rest.drop len.toNat ++
        0 :: (id :: len :: rest).drop (rest.length - len.toNat + 1)) := by
  constructor
  · intro h
    cases h with
    | long hid => exact absurd rfl hid
    | behind hid => exact absurd rfl hid
    | removed hlen hrest => exact ⟨hlen, hrest⟩
  · rintro ⟨hlen, hrest⟩
    exact .removed hlen hrest

/-- The bytes that a scan has in front of it. -/
def Scan.rest (s : Scan) : List UInt8 := area s.mem s.si

/-- Two bytes at least are in front of a scan, or one is. -/
theorem Scan.rest_eq (h : s.si < adv0Tail) :
    s.rest = s.mem s.si :: area s.mem (s.si + 1) := area_cons h

/-- In front of the last byte there are an id and a length. -/
theorem Scan.rest_eq₂ (h : s.si + 1 < adv0Tail) :
    s.rest = s.mem s.si :: s.mem (s.si + 1) :: area s.mem (s.si + 2) := by
  rw [s.rest_eq (by omega), area_cons h]

/-- A pass that goes on leaves it open whether the scan runs past the tail. -/
theorem overruns_next (hs : s.si < adv0Tail) (h : setStep dl s = .next u) :
    Overruns dl s.rest ↔ Overruns dl u.rest := by
  simp only [setStep] at h
  split_ifs at h with hid hlong hzero hlt
  · cases h
    have hrest : s.rest = dl :: s.mem (s.si + 1) :: area s.mem (s.si + 2) := by
      rw [s.rest_eq₂ (by omega), hid]
    have hcount : adv0Tail - (s.si + 2) - (s.mem (s.si + 1)).toNat =
        adv0Tail - (s.si + 2 + (s.mem (s.si + 1)).toNat) := by omega
    rw [hrest, overruns_self, ← hrest, length_area, area_drop, hcount, Scan.rest, Scan.rest,
      area_removed (by omega) (by omega)]
    exact and_iff_right (by omega)
  · cases h
    rw [s.rest_eq₂ (by omega), overruns_other hid hzero, length_area, area_drop, Scan.rest]
    exact or_iff_right (by omega)

/-- A pass that ends the scan ends it behind the tail if the scan runs past the tail. -/
theorem overruns_stop (hs : s.si < adv0Tail) (h : setStep dl s = .stop u) :
    Overruns dl s.rest ↔ adv0Tail < u.si := by
  simp only [setStep] at h
  split_ifs at h with hid hlong hzero hlt
  · cases h
    refine iff_of_false (fun hrun => ?_) hs.not_gt
    rcases Nat.lt_or_ge (s.si + 1) adv0Tail with htwo | hone
    · rw [s.rest_eq₂ htwo, hid, overruns_self, length_area] at hrun
      omega
    · rw [s.rest_eq hs, area_nil hone, overruns_single] at hrun
      exact hrun.1 hid
  · cases h
    rw [s.rest_eq hs, hzero]
    exact iff_of_false (not_overruns_zero fun heq => hid (hzero.trans heq)) hs.not_gt
  · cases h
    rcases Nat.lt_or_ge (s.si + 1) adv0Tail with htwo | hone
    · rw [s.rest_eq₂ htwo, overruns_other hid hzero, length_area, area_drop,
        area_nil (Nat.not_lt.mp hlt), or_iff_left not_overruns_nil]
      dsimp only
      omega
    · rw [s.rest_eq hs, area_nil hone, overruns_single]
      exact iff_of_true ⟨hid, hzero⟩ (by dsimp only; omega)

/-- The first byte of an area. -/
theorem area_eq_cons {l : List UInt8} (h : area mem a = t :: l) :
    a < adv0Tail ∧ mem a = t ∧ area mem (a + 1) = l := by
  have ha : a < adv0Tail := by
    by_contra hge
    rw [area_nil (Nat.not_lt.mp hge)] at h
    cases h
  rw [area_cons ha] at h
  exact ⟨ha, List.cons.inj h⟩

/-- From a state on, a scan ends behind the tail if it runs past the tail. -/
theorem exists_stop {l : List UInt8} (hrun : Overruns dl l) (hl : s.rest = l) :
    ∃ t u, Reaches (setStep dl) s t ∧ setStep dl t = .stop u ∧ adv0Tail < u.si := by
  -- Each case of the list is one pass: the first two end the scan, the other two go on.
  induction hrun generalizing s with
  | single hid hzero =>
    obtain ⟨hs, rfl, hnil⟩ := area_eq_cons hl
    have hone := congrArg List.length hnil
    rw [length_area, List.length_nil] at hone
    have hstop : setStep dl s = .stop { s with si := s.si + 2 + (s.mem (s.si + 1)).toNat } := by
      simp only [setStep, if_neg hid, if_neg hzero]
      rw [if_neg (by omega)]
    exact ⟨s, _, .start, hstop, by dsimp only; omega⟩
  | long hid hzero hlong =>
    obtain ⟨-, rfl, htail⟩ := area_eq_cons hl
    obtain ⟨hs, rfl, rfl⟩ := area_eq_cons htail
    rw [length_area] at hlong
    have hstop : setStep dl s = .stop { s with si := s.si + 2 + (s.mem (s.si + 1)).toNat } := by
      simp only [setStep, if_neg hid, if_neg hzero]
      rw [if_neg (by omega)]
    exact ⟨s, _, .start, hstop, by dsimp only; omega⟩
  | behind hid hzero hrest ih =>
    obtain ⟨-, rfl, htail⟩ := area_eq_cons hl
    obtain ⟨hs, rfl, rfl⟩ := area_eq_cons htail
    rw [area_drop] at hrest ih
    have hlt : s.si + 2 + (s.mem (s.si + 1)).toNat < adv0Tail := by
      by_contra hge
      rw [area_nil (by omega)] at hrest
      exact not_overruns_nil hrest
    have hnext : setStep dl s = .next { s with si := s.si + 2 + (s.mem (s.si + 1)).toNat } := by
      simp only [setStep, if_neg hid, if_neg hzero, if_pos hlt]
    obtain ⟨t, u, hreach, hstop, hu⟩ := @ih ⟨s.mem, s.si + 2 + (s.mem (s.si + 1)).toNat⟩ rfl
    exact ⟨t, u, (Reaches.start.next hnext).trans hreach, hstop, hu⟩
  | removed hlen hrest ih =>
    obtain ⟨-, hid, htail⟩ := area_eq_cons hl
    obtain ⟨hs, rfl, rfl⟩ := area_eq_cons htail
    rw [length_area] at hlen
    generalize hsi : s.si + 2 + (s.mem (s.si + 1)).toNat = si
    have hcount : adv0Tail - (s.si + 1 + 1) - (s.mem (s.si + 1)).toNat = adv0Tail - si := by omega
    have hnext : setStep dl s = .next ⟨put (repMovsb s.mem (adv0Tail - si) si s.si)
        (s.si + (adv0Tail - si)) 0, s.si⟩ := by
      simp only [setStep, if_pos hid, hsi]
      rw [if_neg (by omega)]
    have harea : area (put (repMovsb s.mem (adv0Tail - si) si s.si)
        (s.si + (adv0Tail - si)) 0) s.si =
        area s.mem si ++ 0 :: s.rest.drop (adv0Tail - si + 1) :=
      area_removed (by omega) (by omega)
    have hplace : s.si + 1 + 1 + (s.mem (s.si + 1)).toNat = si := by omega
    rw [← hl, length_area, area_drop, hcount, hplace] at ih
    obtain ⟨t, u, hreach, hstop, hu⟩ := @ih ⟨_, s.si⟩ harea
    exact ⟨t, u, (Reaches.start.next hnext).trans hreach, hstop, hu⟩

/-! ## The result -/

/-- The scan of `adv_set` ends behind the tail if the data area overruns. -/
theorem scan_overruns_iff (mem : Mem) (dl : UInt8) :
    (∃ s u, Reaches (setStep dl) ⟨mem, adv0Data⟩ s ∧ setStep dl s = .stop u ∧ adv0Tail < u.si) ↔
      Overruns dl (area mem adv0Data) := by
  constructor
  · rintro ⟨s, u, hreach, hstop, hu⟩
    have hs := (overruns_stop (setReach_lt hreach) hstop).mpr hu
    clear hstop hu
    induction hreach with
    | start => exact hs
    | next hreach hnext ih => exact ih ((overruns_next (setReach_lt hreach) hnext).mpr hs)
  · intro hrun
    exact exists_stop hrun rfl

/-- `adv_get` and `adv_set` stay inside the vector, with the new data at the tail at most, if and
only if the value is not empty or the data area does not overrun. -/
theorem adv_stays_iff (mem : Mem) (id : UInt8) (value : List UInt8) :
    (GetStays mem id ∧ SetStays mem id value) ↔
      (value ≠ [] ∨ ¬ Overruns id (area mem adv0Data)) := by
  rw [and_iff_right (getStays mem id), ← scan_overruns_iff]
  constructor
  · intro h
    by_contra hbad
    push Not at hbad
    obtain ⟨rfl, s, u, hreach, hstop, hu⟩ := hbad
    exact (h.fill (by decide) s u hreach hstop u.si rfl).not_gt hu
  · intro h
    have hdi : ∀ s t di, Reaches (setStep id) ⟨mem, adv0Data⟩ s → setStep id s = .stop t →
        newEnd value t.si = some di → di ≤ adv0Tail := by
      intro s t di hreach hstop hnew
      rcases h with hvalue | hrun
      · exact (newEnd_lt hvalue hnew).le
      · by_cases hvalue : value = []
        · rw [hvalue] at hnew
          cases hnew
          exact Nat.not_lt.mp fun hlt => hrun ⟨s, t, hreach, hstop, hlt⟩
        · exact (newEnd_lt hvalue hnew).le
    refine ⟨fun _ s hs => (setReach_lt hs).le, fun _ s hs a ha => setTouches_lt (setReach_lt hs) ha,
      fun _ s t hs ht di hnew => hdi s t di hs ht hnew, fun _ s t hs ht a ha => ?_⟩
    have hnew := ha
    obtain ⟨di, hnew, -⟩ := hnew
    exact finishTouches_lt hnew (hdi s t di hs ht hnew) ha

/-- A vector with a good checksum, a tag of 255 bytes, and another one that runs past the tail. -/
def overlongMem : Mem := fun a =>
  if a < adv0Data then
    [0xa5, 0x2f, 0x2d, 0x5a, 0x65, 0x16, 0x04, 0xa2].getD a 0
  else if a = 8 ∨ a = 265 then 2
  else if a = 9 ∨ a = 266 then 0xff
  else if a < adv0Tail then 0
  else [0x64, 0xbf, 0x28, 0xdd].getD (a - adv0Tail) 0

/-- A vector that passes its check can have a tag that ends behind it. -/
theorem not_adv_stays : ¬ ∀ (mem : Mem) (id : UInt8) (value : List UInt8),
    checkAdv mem adv0 = true → GetStays mem id ∧ SetStays mem id value := by
  intro hall
  obtain ⟨-, hset⟩ := hall overlongMem 1 [] (by decide +kernel)
  have hfirst : setStep 1 ⟨overlongMem, adv0Data⟩ = .next ⟨overlongMem, 265⟩ := rfl
  have hsecond : setStep 1 ⟨overlongMem, 265⟩ = .stop ⟨overlongMem, 522⟩ := rfl
  have hdi := hset.fill (by decide) _ _ (Reaches.start.next hfirst) hsecond 522 rfl
  exact absurd hdi (by decide)

end Liigboot.Adv
