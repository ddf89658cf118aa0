import Liigboot.Lib.Loop
import Mathlib.Order.Lattice.Nat

/-!
# The size of high memory

`get_e820` of `highmem.inc` asks the BIOS for its memory map, entry by entry. It starts at 1 MB and
goes on to the end of each range of memory that begins where it is, or below; then it starts over,
as the ranges may come in any order. The other ranges that it meets are limits.
-/

namespace Liigboot.Boot

/-! ## The source -/

/-- `E820Buf`. -/
structure E820Entry where
  baseLow : UInt32
  baseHigh : UInt32
  lengthLow : UInt32
  lengthHigh : UInt32
  type : UInt32
  deriving DecidableEq, Repr

/-- What the call 0E820h returns. -/
structure E820Answer where
  carry : Bool
  eax : UInt32
  cx : UInt16
  ebx : UInt32
  entry : E820Entry
  deriving DecidableEq, Repr

/-- The calls of interrupt 15h: 0E820h for each value of `ebx`, 0E801h with `ax` and `bx` unless
the carry flag is set, and 88h with `ax`. -/
structure Bios where
  e820 : UInt32 → E820Answer
  e801 : Option (UInt16 × UInt16)
  ext88 : UInt16

/-- `SMAP`, backwards. -/
def smap : UInt32 := 0x534D4150

/-- The variables `E820Mem` and `E820Max`, and `ebx`. -/
structure Probe where
  e820Mem : UInt32
  e820Max : UInt32
  ebx : UInt32
  deriving DecidableEq, Repr

/-- `get_e820`. -/
def Probe.init : Probe := ⟨0x100000, -0x100000, 0⟩

/-- `.e820_done`: the size, or nothing if no memory was found. -/
def e820Done (s : Probe) : Option UInt32 :=
  let eax := if s.e820Mem ≤ s.e820Max then s.e820Mem else s.e820Max
  if eax > 0x100000 then some eax else none

/-- `.int_loop`. -/
def intLoop (s : Probe) : Step Probe (Option UInt32) :=
  if s.ebx = 0 then .stop (e820Done s) else .next s

/-- The end of a range of memory that starts below 4 GB, in `eax`. -/
def E820Entry.ramEnd (e : E820Entry) : UInt32 :=
  let eax := e.baseLow + e.lengthLow
  -- carry, or a length of 4 GB at least
  if eax < e.baseLow ∨ e.lengthHigh ≠ 0 then 0xFFFFFFFF else eax

/-- What is done with an entry. -/
def seeEntry (e : E820Entry) (s : Probe) : Step Probe (Option UInt32) :=
  if e.baseHigh > 0 then intLoop s
  else if e.type ≠ 1 then
    if e.baseLow < 0x100000 ∨ s.e820Max ≤ e.baseLow then intLoop s
    else intLoop { s with e820Max := e.baseLow }
  else if e.baseLow > s.e820Mem then intLoop s
  else if e.ramEnd ≤ s.e820Mem then intLoop s
  -- `.start_over`
  else .next { s with e820Mem := e.ramEnd, ebx := 0 }

/-- From `.do_e820` to the next call. -/
def e820Step (bios : Bios) (s : Probe) : Step Probe (Option UInt32) :=
  let a := bios.e820 s.ebx
  if a.carry then
    -- ebx == 0 means error, ebx != 0 means we're done
    if a.ebx ≠ 0 then .stop (e820Done s) else .stop none
  else if a.eax ≠ smap ∨ a.cx < 20 then .stop none
  else seeEntry a.entry { s with ebx := a.ebx }

/-- `e801_hole`. -/
def e801Hole (ax : UInt16) : UInt32 := ax.toUInt32 <<< 10 + 0x100000

/-- `no_e801`. -/
def noE801 (ax : UInt16) : UInt32 := e801Hole (if ax ≤ 14 * 1024 then ax else 14 * 1024)

/-- `no_e820`. -/
def noE820 (bios : Bios) : UInt32 :=
  match bios.e801 with
  | none => noE801 bios.ext88
  | some (ax, bx) =>
    if ax > 0x3C00 then noE801 bios.ext88
    else if ax < 0x3C00 then e801Hole ax
    else bx.toUInt32 <<< 16 + 0x1000000

/-- `highmemsize`, for a number of calls of 0E820h: `HighMemSize`. -/
def highmemsize (bios : Bios) (calls : Nat) : Option UInt32 :=
  (runLoop (e820Step bios) calls Probe.init).map fun found => found.getD (noE820 bios)

/-! ## What a map says -/

/-- The start of an entry. -/
def E820Entry.start (e : E820Entry) : Nat := e.baseHigh.toNat * 2 ^ 32 + e.baseLow.toNat

/-- The length of an entry. -/
def E820Entry.length (e : E820Entry) : Nat := e.lengthHigh.toNat * 2 ^ 32 + e.lengthLow.toNat

/-- An address is in a range of memory that starts below 4 GB. -/
def IsRam (map : List E820Entry) (a : Nat) : Prop :=
  ∃ e ∈ map, e.type = 1 ∧ e.start < 2 ^ 32 ∧ e.start ≤ a ∧ a < e.start + e.length

/-- Where memory from 1 MB on may end. -/
def ramRegion (map : List E820Entry) : Set Nat :=
  {a | 2 ^ 20 ≤ a ∧ ∀ b, 2 ^ 20 ≤ b → b < a → IsRam map b}

/-- Where it ends. -/
noncomputable def regionEnd (map : List E820Entry) : Nat := sSup (ramRegion map)

/-- Where the other entries start, from 1 MB on and below 4 GB. -/
def nonRamStarts (map : List E820Entry) : Set Nat :=
  {a | ∃ e ∈ map, e.type ≠ 1 ∧ e.start = a ∧ 2 ^ 20 ≤ a ∧ a < 2 ^ 32}

/-- What limits high memory. -/
def memoryLimits (map : List E820Entry) : Set Nat :=
  {2 ^ 32 - 2 ^ 20, regionEnd map} ∪ nonRamStarts map

/-- The BIOS reports some entries from a value of `ebx` on: the last one with `ebx` zero, or the
carry flag behind it. -/
inductive Reports (bios : Bios) : UInt32 → List E820Entry → Prop
  | last {ebx : UInt32} (hcarry : (bios.e820 ebx).carry = false)
      (hsmap : (bios.e820 ebx).eax = smap) (hcx : 20 ≤ (bios.e820 ebx).cx)
      (hebx : (bios.e820 ebx).ebx = 0) : Reports bios ebx [(bios.e820 ebx).entry]
  | next {ebx : UInt32} {map : List E820Entry} (hcarry : (bios.e820 ebx).carry = false)
      (hsmap : (bios.e820 ebx).eax = smap) (hcx : 20 ≤ (bios.e820 ebx).cx)
      (hebx : (bios.e820 ebx).ebx ≠ 0) (hrest : Reports bios (bios.e820 ebx).ebx map) :
      Reports bios ebx ((bios.e820 ebx).entry :: map)
  | carry {ebx : UInt32} (hcarry : (bios.e820 ebx).carry = true)
      (hebx : (bios.e820 ebx).ebx ≠ 0) : Reports bios ebx []

variable {bios : Bios} {map pre rest : List E820Entry} {e : E820Entry} {s : Probe}

/-! ## Entries -/

/-- The length of an entry is a 64-bit number. -/
theorem E820Entry.length_lt (e : E820Entry) : e.length < 2 ^ 64 := by
  have hlow := e.lengthLow.toNat_lt
  have hhigh := e.lengthHigh.toNat_lt
  rw [length]
  omega

/-- An entry starts below 4 GiB if the upper half of its base is zero. -/
theorem E820Entry.start_lt_iff (e : E820Entry) : e.start < 2 ^ 32 ↔ ¬e.baseHigh > 0 := by
  have hlow := e.baseLow.toNat_lt
  have hzero : (0 : UInt32).toNat = 0 := rfl
  rw [start, gt_iff_lt, UInt32.lt_iff_toNat_lt, hzero]
  omega

/-- Below 4 GiB the start of an entry is the lower half of its base. -/
theorem E820Entry.start_eq (h : ¬e.baseHigh > 0) : e.start = e.baseLow.toNat := by
  have hstart := e.start_lt_iff.mpr h
  have hdef : e.start = e.baseHigh.toNat * 2 ^ 32 + e.baseLow.toNat := rfl
  omega

/-- The end of a range is cut to 32 bits. -/
theorem E820Entry.toNat_ramEnd (h : ¬e.baseHigh > 0) :
    e.ramEnd.toNat = min (e.start + e.length) (2 ^ 32 - 1) := by
  have hbase := e.baseLow.toNat_lt
  have hlow := e.lengthLow.toNat_lt
  have hzero : (0 : UInt32).toNat = 0 := rfl
  have hsum : (e.baseLow + e.lengthLow).toNat =
      (e.baseLow.toNat + e.lengthLow.toNat) % 2 ^ 32 := UInt32.toNat_add _ _
  have hmax : (0xFFFFFFFF : UInt32).toNat = 2 ^ 32 - 1 := rfl
  rw [start_eq h, length, ramEnd]
  split_ifs with hover
  · rw [UInt32.lt_iff_toNat_lt, ne_eq, ← UInt32.toNat_inj, hzero] at hover
    rw [hmax]
    omega
  · rw [UInt32.lt_iff_toNat_lt, ne_eq, ← UInt32.toNat_inj, hzero] at hover
    omega

/-! ## The region -/

/-- The RAM that goes on from 1 MiB has an end. -/
theorem ramRegion_bounded (map : List E820Entry) : BddAbove (ramRegion map) := by
  refine ⟨2 ^ 32 + 2 ^ 64, fun a ha => ?_⟩
  by_contra hlt
  obtain ⟨e, -, -, hstart, -, hend⟩ := ha.2 (a - 1) (by omega) (by omega)
  have hlength := e.length_lt
  omega

/-- The RAM that goes on from 1 MiB starts there. -/
theorem mem_ramRegion_start (map : List E820Entry) : 2 ^ 20 ∈ ramRegion map :=
  ⟨le_rfl, fun _ hle hlt => absurd hle (Nat.not_le.mpr hlt)⟩

/-- Every address of the region is below its end. -/
theorem le_regionEnd {a : Nat} (h : a ∈ ramRegion map) : a ≤ regionEnd map :=
  le_csSup (ramRegion_bounded map) h

/-- Memory from 1 MB on ends somewhere. -/
theorem regionEnd_isGreatest (map : List E820Entry) :
    IsGreatest (ramRegion map) (regionEnd map) :=
  ⟨Nat.sSup_mem ⟨_, mem_ramRegion_start map⟩ (ramRegion_bounded map), fun _ => le_regionEnd⟩

/-- It ends at an address up to which there is memory, if there is none at that address. -/
theorem regionEnd_eq {a : Nat} (h : a ∈ ramRegion map) (hnot : ¬IsRam map a) :
    regionEnd map = a := by
  refine le_antisymm ?_ (le_regionEnd h)
  by_contra hlt
  exact hnot ((regionEnd_isGreatest map).1.2 a h.1 (Nat.lt_of_not_le hlt))

/-- A range that begins where the region is, or below, is a part of it. -/
theorem ramRegion_extend {a b : Nat} (h : a ∈ ramRegion map) (he : e ∈ map) (htype : e.type = 1)
    (hstart : e.start < 2 ^ 32) (hle : e.start ≤ a) (hab : a ≤ b)
    (hb : b ≤ e.start + e.length) : b ∈ ramRegion map := by
  refine ⟨h.1.trans hab, fun c hc hlt => ?_⟩
  by_cases hca : c < a
  · exact h.2 c hc hca
  · exact ⟨e, he, htype, hstart, by omega, by omega⟩

/-! ## The scan -/

/-- Some entries of the map have been seen since the start of the scan. -/
structure Seen (map pre : List E820Entry) (s : Probe) : Prop where
  mem_region : s.e820Mem.toNat ∈ ramRegion map
  max_le : s.e820Max.toNat ≤ 2 ^ 32 - 2 ^ 20
  max_limit : s.e820Max.toNat = 2 ^ 32 - 2 ^ 20 ∨ s.e820Max.toNat ∈ nonRamStarts map
  /-- No range that was seen goes on from here. -/
  closed : ∀ e ∈ pre, e.type = 1 → e.start < 2 ^ 32 → e.start ≤ s.e820Mem.toNat →
    e.ramEnd ≤ s.e820Mem
  below : ∀ a ∈ nonRamStarts pre, s.e820Max.toNat ≤ a

/-- Before the first call no entry has been seen. -/
theorem Seen.init (map : List E820Entry) : Seen map [] Probe.init where
  mem_region := mem_ramRegion_start map
  max_le := Nat.le_of_ble_eq_true rfl
  max_limit := Or.inl rfl
  closed _ he := absurd he List.not_mem_nil
  below := fun _ ⟨_, he, _⟩ => absurd he List.not_mem_nil

/-- What a scan has found that came to the end of the map. -/
theorem Seen.isLeast (h : Seen map map s) :
    IsLeast (memoryLimits map) (min s.e820Mem.toNat s.e820Max.toNat) := by
  have hmax := h.max_le
  constructor
  · rcases Nat.le_total s.e820Max.toNat s.e820Mem.toNat with hle | hle
    · rw [Nat.min_eq_right hle]
      rcases h.max_limit with htop | hstart
      · exact Or.inl (Or.inl htop)
      · exact Or.inr hstart
    · rw [Nat.min_eq_left hle]
      refine Or.inl (Or.inr (regionEnd_eq h.mem_region ?_).symm)
      rintro ⟨e, he, htype, hstart, hfrom, hend⟩
      have hclosed := UInt32.le_iff_toNat_le.mp (h.closed e he htype hstart hfrom)
      rw [E820Entry.toNat_ramEnd (e.start_lt_iff.mp hstart)] at hclosed
      omega
  · rintro a ((rfl | rfl) | hstart)
    · omega
    · exact (Nat.min_le_left _ _).trans (le_regionEnd h.mem_region)
    · exact (Nat.min_le_right _ _).trans (h.below a hstart)

/-- The size that is found at the end of a scan. -/
theorem e820Done_eq (s : Probe) :
    e820Done s = if 2 ^ 20 < min s.e820Mem.toNat s.e820Max.toNat then
      some (UInt32.ofNat (min s.e820Mem.toNat s.e820Max.toNat)) else none := by
  rw [e820Done]
  by_cases hle : s.e820Mem ≤ s.e820Max
  · rw [if_pos hle, Nat.min_eq_left (UInt32.le_iff_toNat_le.mp hle), UInt32.ofNat_toNat]
    exact if_congr UInt32.lt_iff_toNat_lt rfl rfl
  · rw [if_neg hle, Nat.min_eq_right (Nat.le_of_not_le (mt UInt32.le_iff_toNat_le.mpr hle)),
      UInt32.ofNat_toNat]
    exact if_congr UInt32.lt_iff_toNat_lt rfl rfl

/-- One more entry, which is no reason to go on. -/
theorem Seen.snoc (h : Seen map pre s)
    (hclosed : e.type = 1 → e.start < 2 ^ 32 → e.start ≤ s.e820Mem.toNat → e.ramEnd ≤ s.e820Mem)
    (hbelow : e.type ≠ 1 → 2 ^ 20 ≤ e.start → e.start < 2 ^ 32 → s.e820Max.toNat ≤ e.start) :
    Seen map (pre ++ [e]) s where
  mem_region := h.mem_region
  max_le := h.max_le
  max_limit := h.max_limit
  closed := List.forall_mem_append.mpr ⟨h.closed, List.forall_mem_singleton.mpr hclosed⟩
  below := by
    rintro a ⟨e', he', htype, rfl, hmega, hlt⟩
    rcases List.mem_append.mp he' with he' | he'
    · exact h.below _ ⟨e', he', htype, rfl, hmega, hlt⟩
    · obtain rfl := List.mem_singleton.mp he'
      exact hbelow htype hmega hlt

/-- What an entry does: the scan goes on, or it starts over with more memory. -/
theorem Seen.entry (h : Seen map pre s) (he : e ∈ map) :
    (∃ s', seeEntry e s = intLoop s' ∧ Seen map (pre ++ [e]) s' ∧ s'.ebx = s.ebx ∧
        s'.e820Mem = s.e820Mem) ∨
      ∃ s', seeEntry e s = .next s' ∧ Seen map [] s' ∧ s'.ebx = 0 ∧ s.e820Mem < s'.e820Mem := by
  have hmega : (0x100000 : UInt32).toNat = 2 ^ 20 := rfl
  rw [seeEntry]
  split_ifs with hhigh htype hlimit hgap hbase
  · -- it starts behind 4 GB
    have hstart := mt e.start_lt_iff.mp (not_not.mpr hhigh)
    exact Or.inl ⟨s, rfl, h.snoc (fun _ hlt => absurd hlt hstart)
      (fun _ _ hlt => absurd hlt hstart), rfl, rfl⟩
  · -- it is no memory, and no new limit
    rw [UInt32.lt_iff_toNat_lt, UInt32.le_iff_toNat_le, hmega, ← E820Entry.start_eq hhigh] at hlimit
    exact Or.inl ⟨s, rfl, h.snoc (fun hram => absurd hram htype) (fun _ hle _ => by omega), rfl,
      rfl⟩
  · -- it is a new limit
    rw [UInt32.lt_iff_toNat_lt, UInt32.le_iff_toNat_le, hmega, ← E820Entry.start_eq hhigh] at hlimit
    have hlow := E820Entry.start_eq hhigh
    have hmax := h.max_le
    have hlimit' : Seen map pre { s with e820Max := e.baseLow } := by
      refine ⟨h.mem_region, by dsimp only; omega, Or.inr ⟨e, he, htype, hlow, by dsimp only; omega,
        by dsimp only; omega⟩, h.closed, fun a ha => ?_⟩
      have hbelow := h.below a ha
      dsimp only
      omega
    exact Or.inl ⟨_, rfl, hlimit'.snoc (fun hram => absurd hram htype) (fun _ _ _ => hlow.ge), rfl,
      rfl⟩
  · -- it is memory behind a gap
    rw [gt_iff_lt, UInt32.lt_iff_toNat_lt, ← E820Entry.start_eq hhigh] at hgap
    exact Or.inl ⟨s, rfl, h.snoc (fun _ _ hle => absurd hgap (Nat.not_lt.mpr hle))
      (fun hnot => absurd (not_not.mp htype) hnot), rfl, rfl⟩
  · -- it is memory that is known
    exact Or.inl ⟨s, rfl, h.snoc (fun _ _ _ => hbase)
      (fun hnot => absurd (not_not.mp htype) hnot), rfl, rfl⟩
  · -- it goes on behind what is known
    rw [gt_iff_lt, UInt32.lt_iff_toNat_lt, ← E820Entry.start_eq hhigh] at hgap
    have hmore := UInt32.not_le.mp hbase
    have hend := E820Entry.toNat_ramEnd hhigh
    have hregion := ramRegion_extend h.mem_region he (not_not.mp htype)
      (e.start_lt_iff.mpr hhigh) (Nat.not_lt.mp hgap) (UInt32.lt_iff_toNat_lt.mp hmore).le
      (by omega)
    exact Or.inr ⟨_, rfl, ⟨hregion, h.max_le, h.max_limit, fun _ he => absurd he List.not_mem_nil,
      fun _ ⟨_, he, _⟩ => absurd he List.not_mem_nil⟩, rfl, hmore⟩

/-- A call that succeeds shows the loader one entry. -/
theorem e820Step_entry (hcarry : (bios.e820 s.ebx).carry = false)
    (hsmap : (bios.e820 s.ebx).eax = smap) (hcx : 20 ≤ (bios.e820 s.ebx).cx) :
    e820Step bios s =
      seeEntry (bios.e820 s.ebx).entry { s with ebx := (bios.e820 s.ebx).ebx } := by
  have hok : ¬((bios.e820 s.ebx).eax ≠ smap ∨ (bios.e820 s.ebx).cx < 20) := by
    rintro (hne | hlt)
    · exact hne hsmap
    · exact UInt16.not_lt.mpr hcx hlt
  rw [e820Step, hcarry, if_neg Bool.false_ne_true, if_neg hok]

/-- The scans come to an end, as each one that starts over has found more memory. -/
theorem Seen.ends (hmap : Reports bios 0 map) (h : Seen map pre s)
    (hrest : Reports bios s.ebx rest) (hsplit : pre ++ rest = map) :
    ∃ n s', runLoop (e820Step bios) n s = some (e820Done s') ∧ Seen map map s' := by
  induction hleft : 2 ^ 32 - s.e820Mem.toNat using Nat.strong_induction_on
    generalizing s pre rest with
  | _ left again =>
    have hover (s' : Probe) (hseen : Seen map [] s') (hebx : s'.ebx = 0)
        (hmore : s.e820Mem < s'.e820Mem) :
        ∃ n s'', runLoop (e820Step bios) n s' = some (e820Done s'') ∧ Seen map map s'' := by
      have hlt := UInt32.lt_iff_toNat_lt.mp hmore
      have hlt' := s'.e820Mem.toNat_lt
      exact again (2 ^ 32 - s'.e820Mem.toNat) (by omega) hseen (hebx.symm ▸ hmap)
        (List.nil_append map) rfl
    generalize hebx : s.ebx = ebx at hrest
    induction hrest generalizing s pre with
    | last hcarry hsmap hcx hzero =>
      subst hebx
      have he : (bios.e820 s.ebx).entry ∈ map :=
        hsplit ▸ List.mem_append_right _ (List.mem_singleton.mpr rfl)
      have hstep := e820Step_entry hcarry hsmap hcx
      have hseen : Seen map pre { s with ebx := (bios.e820 s.ebx).ebx } := ⟨h.1, h.2, h.3, h.4, h.5⟩
      rcases hseen.entry he with ⟨s', hsee, hseen', hebx', -⟩ | ⟨s', hsee, hseen', hebx', hmore⟩
      · refine ⟨1, s', ?_, hsplit ▸ hseen'⟩
        rw [runLoop, hstep, hsee, intLoop, if_pos (hebx'.trans hzero)]
      · obtain ⟨n, s'', hrun, hfinal⟩ := hover s' hseen' hebx' hmore
        refine ⟨n + 1, s'', ?_, hfinal⟩
        rw [runLoop, hstep, hsee]
        exact hrun
    | @next ebx rest hcarry hsmap hcx hne hrest ih =>
      subst hebx
      have he : (bios.e820 s.ebx).entry ∈ map :=
        hsplit ▸ List.mem_append_right _ List.mem_cons_self
      have hstep := e820Step_entry hcarry hsmap hcx
      have hseen : Seen map pre { s with ebx := (bios.e820 s.ebx).ebx } := ⟨h.1, h.2, h.3, h.4, h.5⟩
      rcases hseen.entry he with ⟨s', hsee, hseen', hebx', hmem⟩ | ⟨s', hsee, hseen', hebx', hmore⟩
      · have hsplit' : pre ++ [(bios.e820 s.ebx).entry] ++ rest = map := by
          rw [List.append_assoc]
          exact hsplit
        obtain ⟨n, s'', hrun, hfinal⟩ := ih hseen' hsplit' (hmem ▸ hleft)
          (fun t ht hz hm => hover t ht hz (hmem ▸ hm)) hebx'
        refine ⟨n + 1, s'', ?_, hfinal⟩
        rw [runLoop, hstep, hsee, intLoop, if_neg (hebx' ▸ hne)]
        exact hrun
      · obtain ⟨n, s'', hrun, hfinal⟩ := hover s' hseen' hebx' hmore
        refine ⟨n + 1, s'', ?_, hfinal⟩
        rw [runLoop, hstep, hsee]
        exact hrun
    | carry hcarry hne =>
      subst hebx
      rw [List.append_nil] at hsplit
      refine ⟨1, s, ?_, hsplit ▸ h⟩
      rw [runLoop, e820Step, hcarry, if_pos rfl, if_pos hne]

/-- The value of `HighMemSize` for a limit. -/
def highMemOf (bios : Bios) (limit : Nat) : UInt32 :=
  if 2 ^ 20 < limit then UInt32.ofNat limit else noE820 bios

/-- The loader takes the least limit that the map gives. -/
theorem highmemsize_limit (hmap : Reports bios 0 map) {limit : Nat}
    (hlimit : IsLeast (memoryLimits map) limit) :
    ∃ calls, highmemsize bios calls = some (highMemOf bios limit) := by
  obtain ⟨n, s, hrun, hseen⟩ := (Seen.init map).ends hmap hmap (List.nil_append map)
  obtain rfl := hlimit.unique hseen.isLeast
  refine ⟨n, ?_⟩
  rw [highmemsize, hrun, e820Done_eq, Option.map_some, highMemOf]
  split_ifs
  · rfl
  · rfl

/-- The limits do not depend on the order of the entries. -/
theorem memoryLimits_perm {map' : List E820Entry} (h : map'.Perm map) :
    memoryLimits map' = memoryLimits map := by
  have hram : IsRam map' = IsRam map := by
    funext a
    simp only [IsRam, h.mem_iff]
  have hregion : regionEnd map' = regionEnd map := by
    rw [regionEnd, regionEnd, ramRegion, hram]
    rfl
  have hstarts : nonRamStarts map' = nonRamStarts map := by
    simp only [nonRamStarts, h.mem_iff]
  rw [memoryLimits, memoryLimits, hregion, hstarts]

/-- The probe ends. If what it finds exceeds 1 MB, then it is the least of the limits of the map,
which do not depend on the order of the entries: 4 GB - 1 MB, the end of the memory that is
reachable from 1 MB, and where other entries start. -/
theorem get_e820_least (bios : Bios) (map : List E820Entry) (hmap : Reports bios 0 map) :
    ∃ limit, IsLeast (memoryLimits map) limit ∧
      (∃ calls, highmemsize bios calls = some (highMemOf bios limit)) ∧
      ∀ (bios' : Bios) (map' : List E820Entry), map'.Perm map → Reports bios' 0 map' →
        ∃ calls, highmemsize bios' calls = some (highMemOf bios' limit) := by
  obtain ⟨-, s, -, hseen⟩ := (Seen.init map).ends hmap hmap (List.nil_append map)
  refine ⟨_, hseen.isLeast, highmemsize_limit hmap hseen.isLeast, fun bios' map' hperm hmap' => ?_⟩
  refine highmemsize_limit hmap' ?_
  rw [memoryLimits_perm hperm]
  exact hseen.isLeast

/-! ## Examples -/

/-- 15 MB of memory behind the first one, and 640K below it. -/
def sampleMap : List E820Entry := [⟨0x100000, 0, 0xF00000, 0, 1⟩, ⟨0, 0, 0xA0000, 0, 1⟩]

/-- A BIOS with this map. -/
def sampleBios : Bios where
  e820 ebx :=
    if ebx = 0 then ⟨false, smap, 20, 1, ⟨0x100000, 0, 0xF00000, 0, 1⟩⟩
    else ⟨false, smap, 20, 0, ⟨0, 0, 0xA0000, 0, 1⟩⟩
  e801 := none
  ext88 := 0

/-- The sample BIOS reports the sample map. -/
theorem sampleBios_reports : Reports sampleBios 0 sampleMap :=
  .next rfl rfl (by decide) (by decide) (.last rfl rfl (by decide) rfl)

/-- The sample map reported in any order. -/
theorem get_e820_least_sample : ∃ limit, IsLeast (memoryLimits sampleMap) limit ∧
    (∃ calls, highmemsize sampleBios calls = some (highMemOf sampleBios limit)) ∧
    ∀ (bios' : Bios) (map' : List E820Entry), map'.Perm sampleMap → Reports bios' 0 map' →
      ∃ calls, highmemsize bios' calls = some (highMemOf bios' limit) :=
  get_e820_least sampleBios sampleMap sampleBios_reports

example : highmemsize sampleBios 3 = some 0x1000000 := by decide

end Liigboot.Boot
