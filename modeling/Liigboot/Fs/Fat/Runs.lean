import Liigboot.Fs.Fat.Entries
import Mathlib.Data.List.Induction

/-!
# What a search finds in any slots

`vfat_find_entry` reads slots that need not be those of a well-formed directory. It takes the
pieces of a long name only as a run of slots that count down, and begins a run only where it reads
none: the slot that breaks a run begins no other one. So the slots in front of an entry are a
sequence of misses.
-/

namespace Liigboot.Fs.Fat

/-! ## The loop over slots -/

/-- The local variables of `vfat_find_entry`, and the memory from `long_name` on. A search for the
empty name stores behind the buffer; nothing else that it uses lies there. -/
structure SearchState where
  vfatNext : UInt8
  vfatCsum : UInt8
  longName : Nat → UInt16
  longLen : Nat
  longMatch : Bool

/-- `copy_long_chunk(long_name + id*13, de)`, wherever that is. -/
def storeLongChunk (longName : Nat → UInt16) (id : UInt8) (de : Slot) : Nat → UInt16 := fun i =>
  if id.toNat * 13 ≤ i ∧ i < id.toNat * 13 + 13 then de.longChunk.getD (i - id.toNat * 13) 0
  else longName i

/-- `not_match`. -/
def SearchState.notMatch (st : SearchState) (vfatInit : UInt8) : SearchState :=
  { st with vfatNext := vfatInit, longMatch := false }

/-- The last piece: its checksum, the length of the name, and an empty buffer. -/
def SearchState.first (st : SearchState) (id : UInt8) (de : Slot) : SearchState :=
  { st with
    vfatCsum := de.checksum
    longLen := id.toNat * 13
    longName := fun i => if i < 260 then 0 else st.longName i }

/-- The characters that are compared with the name. -/
def SearchState.text (st : SearchState) : List UInt16 := (List.range st.longLen).map st.longName

/-- A piece of a long name, whose ordinal and checksum are right. -/
def searchPiece (cp : Codepage) (dname : List UInt8) (vfatInit : UInt8) (st : SearchState)
    (id : UInt8) (de : Slot) : SearchState :=
  let id := id - 1
  let st := { st with vfatNext := id, longName := storeLongChunk st.longName id de }
  if id = 0 then
    if vfatMatchLongname cp (cStr dname) st.text = some true then { st with longMatch := true }
    else st.notMatch vfatInit
  else st

/-- A round of the loop over the entries of a sector: `vfat_find_entry` returns, or it goes on. -/
def searchStep (cp : Codepage) (dname mangledName : List UInt8) (vfatInit : UInt8)
    (st : SearchState) (de : Slot) : Except (Option Slot) SearchState :=
  if de 0 = 0 then .error none
  else if de.isLong then
    if de.id ≠ st.vfatNext then .ok (st.notMatch vfatInit)
    else if de.id &&& 0x40 ≠ 0 then
      let id := de.id &&& 0x3f
      .ok (searchPiece cp dname vfatInit (st.first id de) id de)
    else if de.checksum ≠ st.vfatCsum then .ok (st.notMatch vfatInit)
    else .ok (searchPiece cp dname vfatInit st de.id de)
  else if de.attr &&& attrVolumeId ≠ 0 then .ok (st.notMatch vfatInit)
  else if st.longMatch then
    if getChecksum de.name = st.vfatCsum then .error (some de) else .ok (st.notMatch vfatInit)
  else if mangledName = de.name then .error (some de)
  else .ok (st.notMatch vfatInit)

/-! ## Runs -/

/-- The ordinals `n`, …, 1. -/
def countdown (n : Nat) : List UInt8 := (List.range n).reverse.map fun k => UInt8.ofNat (k + 1)

/-- The ordinals of the slots that a search for a name of `count` pieces waits for, one after the
other. The ordinal of the empty name is 0. The next one is 255, and that is the last one of 63
pieces. -/
def runIds (count : Nat) : List UInt8 :=
  if count = 0 then 0x40 :: 0xff :: countdown 62
  else (UInt8.ofNat count ||| 0x40) :: countdown (count - 1)

/-- The slots of a run that another last piece follows. -/
def runSkip (count : Nat) : Nat := if count = 0 then 1 else 0

/-- The pieces of a name in a run. -/
def runPieces (count : Nat) (run : List Slot) : List Slot := run.drop (runSkip count)

/-- What the pieces of a run hold; the first piece comes last. -/
def runText (count : Nat) (run : List Slot) : List UInt16 :=
  (runPieces count run).reverse.flatMap Slot.longChunk

/-- Slots that count down, as far as they go. -/
structure IsRun (count : Nat) (run : List Slot) : Prop where
  isLong : ∀ de ∈ run, de.isLong = true
  ids : run.map Slot.id <+: runIds count
  checksum : ∀ a ∈ runPieces count run, ∀ b ∈ runPieces count run, a.checksum = b.checksum

/-- The run goes down to the first piece. -/
def Whole (count : Nat) (run : List Slot) : Prop := run.length = (runIds count).length

instance decidableWhole (count : Nat) (run : List Slot) : Decidable (Whole count run) :=
  inferInstanceAs (Decidable (_ = _))

variable {cp : Codepage} {dname mangledName : List UInt8} {vfatInit : UInt8} {st : SearchState}
  {de : Slot} {run slots rest : List Slot} {count : Nat}

/-- A run that is not yet whole, or that holds the name. -/
structure Waits (cp : Codepage) (dname : List UInt8) (run : List Slot) : Prop where
  isRun : IsRun (pieceCount dname.length) run
  holds : Whole (pieceCount dname.length) run →
    HoldsName cp dname (runText (pieceCount dname.length) run)

/-- A short entry behind a run: the checksum of the run decides if it is whole, and else the short
name. -/
def Hits (cp : Codepage) (dname : List UInt8) (run : List Slot) (de : Slot) : Prop :=
  de.isLong = false ∧ de.attr &&& attrVolumeId = 0 ∧
    if Whole (pieceCount dname.length) run then
      ∀ a ∈ runPieces (pieceCount dname.length) run, a.checksum = getChecksum de.name
    else mangleDosName cp (cStr dname) = some de.name

/-- Slots in which the name is not found: a run with another name, or a run up to a slot that does
not belong to it and is no entry of the name. -/
inductive Miss (cp : Codepage) (dname : List UInt8) : List Slot → Prop where
  | other {run : List Slot} (isRun : IsRun (pieceCount dname.length) run)
      (whole : Whole (pieceCount dname.length) run)
      (holds : ¬HoldsName cp dname (runText (pieceCount dname.length) run)) : Miss cp dname run
  | broken {run : List Slot} {de : Slot} (waits : Waits cp dname run)
      (isRun : ¬IsRun (pieceCount dname.length) (run ++ [de])) (hits : ¬Hits cp dname run de) :
      Miss cp dname (run ++ [de])

/-- An entry of the name lies behind misses, with its run in front of it. -/
def HasEntry (cp : Codepage) (dname : List UInt8) (slots : List Slot) : Prop :=
  ∃ (misses : List (List Slot)) (run : List Slot) (de : Slot) (rest : List Slot),
    slots = misses.flatten ++ run ++ de :: rest ∧
    (∀ miss ∈ misses, Miss cp dname miss) ∧ Waits cp dname run ∧ Hits cp dname run de

/-! ## Ordinals -/

@[simp] theorem length_countdown (n : Nat) : (countdown n).length = n := by
  rw [countdown, List.length_map, List.length_reverse, List.length_range]

/-- The byte at a place of `runIds`, and what is left of it without the flag of a last piece. -/
def runId (count k : Nat) : UInt8 := (runIds count).getD k 0

def runOrdinal (count k : Nat) : UInt8 :=
  if k ≤ runSkip count then runId count k &&& 0x3f else runId count k

/-- What the ids of a run are for every count up to 20. -/
theorem runId_table : ∀ count < 21, ∀ k < (runIds count).length, runId count k ≠ 0 ∧
    (runId count k &&& 0x40 ≠ 0 ↔ k ≤ runSkip count) ∧
    runOrdinal count k - 1 = runId count (k + 1) ∧
    (runId count (k + 1) = 0 ↔ k + 1 = (runIds count).length) ∧
    (runSkip count ≤ k → (runOrdinal count k).toNat = (runIds count).length - k ∧
      (runId count (k + 1)).toNat = (runIds count).length - (k + 1)) := by
  decide +kernel

/-! ## Slots that continue a run -/

/-- One further element keeps a prefix if it is the one that comes next. -/
theorem append_singleton_prefix_iff {α : Type*} {xs ys : List α} {x : α} :
    xs ++ [x] <+: ys ↔ xs <+: ys ∧ ys[xs.length]? = some x := by
  constructor
  · rintro ⟨tail, rfl⟩
    refine ⟨⟨[x] ++ tail, (List.append_assoc ..).symm⟩, ?_⟩
    rw [List.append_assoc, List.getElem?_append_right (Nat.le_refl _), Nat.sub_self]
    rfl
  · rintro ⟨⟨tail, rfl⟩, hx⟩
    rw [List.getElem?_append_right (Nat.le_refl _), Nat.sub_self] at hx
    cases tail with
    | nil => exact nomatch hx
    | cons y tail =>
      obtain rfl := Option.some.inj hx
      exact ⟨tail, List.append_assoc ..⟩

theorem isRun_nil : IsRun count [] :=
  ⟨nofun, List.nil_prefix, by
    rw [runPieces, List.drop_nil]
    exact nofun⟩

/-- The empty run is not a whole one. -/
theorem isRun_nil_not_whole (count : Nat) : ¬Whole count [] := by
  intro hwhole
  rw [Whole, List.length_nil, runIds] at hwhole
  split_ifs at hwhole

theorem waits_nil : Waits cp dname [] :=
  ⟨isRun_nil, fun hwhole => absurd hwhole (isRun_nil_not_whole _)⟩

/-- A run has as many entries as there are ids. -/
theorem IsRun.length_le (h : IsRun count run) : run.length ≤ (runIds count).length := by
  have hle := h.ids.length_le
  rwa [List.length_map] at hle

/-- A slot is one of the pieces as soon as the last of them is reached. -/
theorem runPieces_append (count : Nat) (run : List Slot) (de : Slot) :
    runPieces count (run ++ [de]) =
      runPieces count run ++ if runSkip count ≤ run.length then [de] else [] := by
  rw [runPieces, runPieces, List.drop_append]
  congr 1
  split_ifs with hle
  · rw [Nat.sub_eq_zero_of_le hle]
    rfl
  · exact List.drop_eq_nil_of_le (show 1 ≤ _ by omega)

/-- A further entry puts its characters in front of the text. -/
theorem runText_append (count : Nat) (run : List Slot) (de : Slot) :
    runText count (run ++ [de]) =
      (if runSkip count ≤ run.length then de.longChunk else []) ++ runText count run := by
  rw [runText, runPieces_append, List.reverse_append, List.flatMap_append, runText]
  congr 1
  split_ifs
  · exact List.flatMap_singleton ..
  · rfl

/-- A slot continues a run when it has the next ordinal, and the checksum of the pieces. -/
theorem isRun_append_iff : IsRun count (run ++ [de]) ↔ IsRun count run ∧ de.isLong = true ∧
    run.length < (runIds count).length ∧ de.id = runId count run.length ∧
    ∀ a ∈ runPieces count run, a.checksum = de.checksum := by
  have hids : (run ++ [de]).map Slot.id <+: runIds count ↔ run.map Slot.id <+: runIds count ∧
      run.length < (runIds count).length ∧ de.id = runId count run.length := by
    rw [List.map_append, List.map_singleton, append_singleton_prefix_iff, List.length_map, runId,
      List.getD_eq_getElem?_getD]
    refine and_congr_right fun _ => ⟨fun h => ?_, fun ⟨hlt, hid⟩ => ?_⟩
    · rw [h]
      exact ⟨(List.getElem?_eq_some_iff.mp h).1, rfl⟩
    · rw [hid, List.getElem?_eq_getElem hlt]
      rfl
  constructor
  · rintro ⟨hlong, hfront, hsum⟩
    obtain ⟨hrun, hlt, hid⟩ := hids.mp hfront
    rw [runPieces_append] at hsum
    refine ⟨⟨fun a ha => hlong a (List.mem_append_left _ ha), hrun, fun a ha b hb =>
      hsum a (List.mem_append_left _ ha) b (List.mem_append_left _ hb)⟩,
      hlong de (List.mem_append_right _ (List.mem_singleton_self de)), hlt, hid, fun a ha => ?_⟩
    -- There are pieces only behind the slots that are skipped.
    have hskip : runSkip count ≤ run.length := by
      by_contra hgt
      rw [runPieces, List.drop_eq_nil_of_le (by omega)] at ha
      exact absurd ha List.not_mem_nil
    rw [if_pos hskip] at hsum
    exact hsum a (List.mem_append_left _ ha) de
      (List.mem_append_right _ (List.mem_singleton_self de))
  · rintro ⟨⟨hlong, hfront, hsum⟩, hde, hlt, hid, hnext⟩
    refine ⟨fun a ha => ?_, hids.mpr ⟨hfront, hlt, hid⟩, ?_⟩
    · rcases List.mem_append.mp ha with ha | ha
      · exact hlong a ha
      · rwa [List.mem_singleton.mp ha]
    · rw [runPieces_append]
      have hlast : ∀ a ∈ (if runSkip count ≤ run.length then [de] else []), a = de := by
        intro a ha
        split_ifs at ha
        · exact List.mem_singleton.mp ha
        · exact absurd ha List.not_mem_nil
      intro a ha b hb
      rcases List.mem_append.mp ha with ha | ha <;> rcases List.mem_append.mp hb with hb | hb
      · exact hsum a ha b hb
      · rw [hlast b hb]
        exact hnext a ha
      · rw [hlast a ha]
        exact (hnext b hb).symm
      · rw [hlast a ha, hlast b hb]

/-- What is read of a run in front of its last slot is no whole run. -/
theorem Waits.of_append (h : Waits cp dname (run ++ [de])) : Waits cp dname run := by
  obtain ⟨hrun, -, hlt, -⟩ := isRun_append_iff.mp h.isRun
  exact ⟨hrun, fun hwhole => absurd hwhole hlt.ne⟩

/-! ## What is read of a run -/

/-- The characters of a piece that was stored are those of the entry. -/
theorem pieceAt_mem {id : UInt8} {longName : Nat → UInt16} :
    (List.range' (id.toNat * 13) 13).map (storeLongChunk longName id de) = de.longChunk := by
  refine List.ext_getElem (by rw [List.length_map, List.length_range', length_longChunk]) ?_
  intro i hi hi'
  have hlt : i < 13 := hi'
  rw [List.getElem_map, List.getElem_range', storeLongChunk, if_pos (by omega)]
  have hplace : id.toNat * 13 + 1 * i - id.toNat * 13 = i := by omega
  rw [hplace, List.getD_eq_getElem?_getD, List.getElem?_eq_getElem hi']
  rfl

/-- A piece leaves alone what lies behind its place. -/
theorem behindPiece {id : UInt8} {longName : Nat → UInt16} {pos n : Nat}
    (h : id.toNat * 13 + 13 ≤ pos) :
    (List.range' pos n).map (storeLongChunk longName id de) =
      (List.range' pos n).map longName := by
  refine List.map_congr_left fun i hi => ?_
  obtain ⟨hle, -⟩ := List.mem_range'_1.mp hi
  exact if_neg (by omega)

/-- The search has read a run. -/
structure SearchState.Read (count : Nat) (run : List Slot) (st : SearchState) : Prop where
  next : st.vfatNext = runId count run.length
  longMatch : st.longMatch = decide (Whole count run)
  csum : ∀ a ∈ runPieces count run, a.checksum = st.vfatCsum
  longLen : runSkip count < run.length →
    st.longLen = ((runIds count).length - runSkip count) * 13
  text : (List.range' (((runIds count).length - run.length) * 13)
    ((run.length - runSkip count) * 13)).map st.longName = runText count run

/-- Nothing is read where the search begins again. -/
theorem SearchState.read_notMatch (hcount : count ≤ 20) (st : SearchState) :
    (st.notMatch (UInt8.ofNat count ||| 0x40)).Read count [] where
  next := (show ∀ count < 21, UInt8.ofNat count ||| 0x40 = runId count 0 by decide +kernel) count
    (by omega)
  longMatch := by
    rw [decide_eq_false (isRun_nil_not_whole count)]
    rfl
  csum := by
    rw [runPieces, List.drop_nil]
    exact nofun
  longLen h := absurd h (Nat.not_lt_zero _)
  text := by
    rw [List.length_nil, Nat.zero_sub, Nat.zero_mul, runText, runPieces, List.drop_nil]
    rfl

/-- The variables that a piece finds: those of the run in front of it, or new ones. -/
theorem SearchState.Read.begin (hst : st.Read count run) (hcount : count ≤ 20)
    (hrun : IsRun count (run ++ [de])) {st₁ : SearchState}
    (hst₁ : st₁ = if run.length ≤ runSkip count then st.first (runOrdinal count run.length) de
      else st) :
    (∀ a ∈ runPieces count (run ++ [de]), a.checksum = st₁.vfatCsum) ∧
      (runSkip count ≤ run.length → st₁.longLen = ((runIds count).length - runSkip count) * 13) ∧
      (List.range' (((runIds count).length - run.length) * 13)
        ((run.length - runSkip count) * 13)).map st₁.longName = runText count run ∧
      st₁.longMatch = false := by
  obtain ⟨hfront, -, hlt, -, hsum⟩ := isRun_append_iff.mp hrun
  have hmatch : st.longMatch = false := by
    rw [hst.longMatch]
    exact decide_eq_false hlt.ne
  obtain ⟨-, -, -, -, hord⟩ := runId_table count (by omega) run.length hlt
  by_cases hle : run.length ≤ runSkip count
  · rw [if_pos hle] at hst₁
    have hpieces : runPieces count run = [] := List.drop_eq_nil_of_le hle
    have htext : runText count run = [] := by
      rw [runText, hpieces]
      rfl
    subst hst₁
    refine ⟨fun a ha => ?_, fun hge => ?_, ?_, hmatch⟩
    · rw [runPieces_append, hpieces, List.nil_append] at ha
      split_ifs at ha
      · rw [List.mem_singleton.mp ha]
        rfl
      · exact absurd ha List.not_mem_nil
    · rw [Nat.le_antisymm hge hle]
      exact congrArg (· * 13) (hord hge).1
    · rw [Nat.sub_eq_zero_of_le hle, htext]
      rfl
  · rw [if_neg hle] at hst₁
    subst hst₁
    refine ⟨fun a ha => ?_, fun _ => hst.longLen (Nat.lt_of_not_le hle), hst.text, hmatch⟩
    have hne : runPieces count run ≠ [] := by
      rw [runPieces, ne_eq, List.drop_eq_nil_iff]
      exact hle
    obtain ⟨b, hb⟩ := List.exists_mem_of_ne_nil _ hne
    rw [runPieces_append] at ha
    rcases List.mem_append.mp ha with ha | ha
    · exact hst.csum a ha
    · split_ifs at ha
      · rw [List.mem_singleton.mp ha, ← hsum b hb]
        exact hst.csum b hb
      · exact absurd ha List.not_mem_nil

/-- A piece that continues a run, unless it makes it whole with another name. -/
theorem SearchState.Read.searchPiece (hst : st.Read count run) (hcount : count ≤ 20)
    (hdname : 0 ∉ dname) (hrun : IsRun count (run ++ [de])) {st₁ : SearchState}
    (hst₁ : st₁ = if run.length ≤ runSkip count then st.first (runOrdinal count run.length) de
      else st) :
    ((Whole count (run ++ [de]) → HoldsName cp dname (runText count (run ++ [de]))) →
      (searchPiece cp dname (UInt8.ofNat count ||| 0x40) st₁ (runOrdinal count run.length)
        de).Read count (run ++ [de])) ∧
    (Whole count (run ++ [de]) → ¬HoldsName cp dname (runText count (run ++ [de])) →
      (searchPiece cp dname (UInt8.ofNat count ||| 0x40) st₁ (runOrdinal count run.length)
        de).Read count []) := by
  obtain ⟨hsum, hlen, htext, hmatch⟩ := hst.begin hcount hrun hst₁
  obtain ⟨hfront, -, hlt, -⟩ := isRun_append_iff.mp hrun
  obtain ⟨-, -, hnext, hzero, hord⟩ := runId_table count (by omega) run.length hlt
  have hlength : (run ++ [de]).length = run.length + 1 := List.length_append
  have hwhole : Whole count (run ++ [de]) ↔ run.length + 1 = (runIds count).length := by
    rw [Whole, hlength]
  have hskip : runSkip count < (runIds count).length := by
    rw [runSkip, runIds]
    split_ifs <;> simp
  -- The piece stands in front of those that are read.
  have hstored : (List.range' (((runIds count).length - (run ++ [de]).length) * 13)
      (((run ++ [de]).length - runSkip count) * 13)).map
        (storeLongChunk st₁.longName (runId count (run.length + 1)) de) =
          runText count (run ++ [de]) := by
    rw [runText_append, hlength]
    split_ifs with hge
    · have hplace := (hord hge).2
      have hpos : ((runIds count).length - (run.length + 1)) * 13 + 13 =
          ((runIds count).length - run.length) * 13 := by omega
      have hcountDown : (run.length + 1 - runSkip count) * 13 =
          13 + (run.length - runSkip count) * 13 := by omega
      rw [hcountDown, ← List.range'_append_1, List.map_append, hpos, ← hplace, pieceAt_mem,
        behindPiece (by omega), htext]
    · have hnone : run.length + 1 - runSkip count = 0 := by omega
      rw [hnone, runText, runPieces, List.drop_eq_nil_of_le (by omega)]
      rfl
  rw [Fat.searchPiece]
  dsimp only
  rw [hnext]
  by_cases hlast : run.length + 1 = (runIds count).length
  · have hcompared : SearchState.text { st₁ with
        vfatNext := runId count (run.length + 1)
        longName := storeLongChunk st₁.longName (runId count (run.length + 1)) de } =
          runText count (run ++ [de]) := by
      rw [← hstored, SearchState.text, hlen (by omega), List.range_eq_range', hlength, hlast,
        Nat.sub_self, Nat.zero_mul]
    rw [if_pos (hzero.mpr hlast), hcompared]
    by_cases hholds : HoldsName cp dname (runText count (run ++ [de]))
    · rw [if_pos ((vfatMatchLongname_iff hdname).mpr hholds)]
      refine ⟨fun _ => ⟨?_, ?_, hsum, fun _ => hlen (by omega), hstored⟩,
        fun _ hnot => absurd hholds hnot⟩
      · rw [hlength]
      · exact (decide_eq_true (hwhole.mpr hlast)).symm
    · rw [if_neg (mt (vfatMatchLongname_iff hdname).mp hholds)]
      exact ⟨fun h => absurd (h (hwhole.mpr hlast)) hholds,
        fun _ _ => SearchState.read_notMatch hcount _⟩
  · rw [if_neg (mt hzero.mp hlast)]
    refine ⟨fun _ => ⟨?_, ?_, hsum, fun hlt => hlen (by omega), hstored⟩,
      fun h => absurd (hwhole.mp h) hlast⟩
    · rw [hlength]
    · rw [decide_eq_false (mt hwhole.mp hlast)]
      exact hmatch

/-! ## A round of the loop -/

/-- A slot that continues a run. -/
theorem searchStep_continue (hst : st.Read count run) (hcount : count ≤ 20) (hdname : 0 ∉ dname)
    (hrun : IsRun count (run ++ [de])) :
    ∃ st', searchStep cp dname mangledName (UInt8.ofNat count ||| 0x40) st de = .ok st' ∧
      ((Whole count (run ++ [de]) → HoldsName cp dname (runText count (run ++ [de]))) →
        st'.Read count (run ++ [de])) ∧
      (Whole count (run ++ [de]) → ¬HoldsName cp dname (runText count (run ++ [de])) →
        st'.Read count []) := by
  obtain ⟨hfront, hlong, hlt, hid, hsum⟩ := isRun_append_iff.mp hrun
  obtain ⟨hne, hflag, -⟩ := runId_table count (by omega) run.length hlt
  have hzero : de 0 ≠ 0 := by
    rw [← hid] at hne
    exact hne
  have hpiece := @SearchState.Read.searchPiece cp dname st de run count hst hcount hdname hrun _ rfl
  refine ⟨_, ?_, hpiece⟩
  rw [searchStep, if_neg hzero, if_pos hlong, hst.next, hid, if_neg (not_not.mpr rfl)]
  by_cases hle : run.length ≤ runSkip count
  · rw [if_pos (hflag.mpr hle), if_pos hle, runOrdinal, if_pos hle]
  · have hcsum : de.checksum = st.vfatCsum := by
      have hne : runPieces count run ≠ [] := by
        rw [runPieces, ne_eq, List.drop_eq_nil_iff]
        exact hle
      obtain ⟨b, hb⟩ := List.exists_mem_of_ne_nil _ hne
      rw [← hsum b hb, hst.csum b hb]
    rw [if_neg (mt hflag.mp hle), if_neg (not_not.mpr hcsum), if_neg hle, runOrdinal, if_neg hle]

/-- The ordinal of a slot that does not continue a run, or its checksum, is another one. -/
theorem SearchState.Read.not_continue (hst : st.Read count run) (hcount : count ≤ 20)
    (hrun : IsRun count run) (hnot : ¬IsRun count (run ++ [de])) (hne : de 0 ≠ 0)
    (hlong : de.isLong = true) (hid : de.id = st.vfatNext) :
    de.id &&& 0x40 = 0 ∧ de.checksum ≠ st.vfatCsum := by
  rw [hst.next] at hid
  have hlt : run.length < (runIds count).length := by
    refine Nat.lt_of_le_of_ne hrun.length_le fun heq => hne ?_
    rw [runId, List.getD_eq_getElem?_getD, List.getElem?_eq_none heq.ge] at hid
    exact hid
  obtain ⟨-, hflag, -⟩ := runId_table count (by omega) run.length hlt
  have hsum : ¬∀ a ∈ runPieces count run, a.checksum = de.checksum := fun hsum =>
    hnot (isRun_append_iff.mpr ⟨hrun, hlong, hlt, hid, hsum⟩)
  push Not at hsum
  obtain ⟨a, ha, hother⟩ := hsum
  constructor
  · rw [hid]
    by_contra hset
    rw [runPieces, List.drop_eq_nil_of_le (hflag.mp hset)] at ha
    exact absurd ha List.not_mem_nil
  · rw [← hst.csum a ha]
    exact hother.symm

/-- A slot behind a run that neither continues it nor is the entry. -/
theorem searchStep_broken (hst : st.Read (pieceCount dname.length) run)
    (hcount : pieceCount dname.length ≤ 20) (hwaits : Waits cp dname run)
    (hnot : ¬IsRun (pieceCount dname.length) (run ++ [de])) (hne : de 0 ≠ 0)
    (hmangled : mangleDosName cp (cStr dname) = some mangledName) (hhits : ¬Hits cp dname run de) :
    searchStep cp dname mangledName (UInt8.ofNat (pieceCount dname.length) ||| 0x40) st de =
      .ok (st.notMatch (UInt8.ofNat (pieceCount dname.length) ||| 0x40)) := by
  rw [searchStep, if_neg hne]
  split_ifs with hlong hid hflag hcsum hlabel hmatch hsum hname
  · rfl
  · exact absurd (hst.not_continue hcount hwaits.isRun hnot hne hlong (not_not.mp hid)).1 hflag
  · rfl
  · have hother := (hst.not_continue hcount hwaits.isRun hnot hne hlong (not_not.mp hid)).2
    exact absurd hother hcsum
  · rfl
  · rw [hst.longMatch, decide_eq_true_eq] at hmatch
    refine absurd ⟨Bool.eq_false_iff.mpr hlong, not_not.mp hlabel, ?_⟩ hhits
    rw [if_pos hmatch]
    exact fun a ha => (hst.csum a ha).trans hsum.symm
  · rfl
  · rw [hst.longMatch, decide_eq_true_eq] at hmatch
    refine absurd ⟨Bool.eq_false_iff.mpr hlong, not_not.mp hlabel, ?_⟩ hhits
    rw [if_neg hmatch, hmangled, hname]
  · rfl

/-- The pieces of a whole run are some. -/
theorem Whole.exists_mem (h : Whole count run) : ∃ a, a ∈ runPieces count run := by
  refine List.exists_mem_of_ne_nil _ ?_
  rw [runPieces, ne_eq, List.drop_eq_nil_iff, h, runSkip, runIds]
  split_ifs <;> simp

/-- The entry of the name. -/
theorem searchStep_hits (hst : st.Read (pieceCount dname.length) run) (hne : de 0 ≠ 0)
    (hmangled : mangleDosName cp (cStr dname) = some mangledName) (hhits : Hits cp dname run de) :
    searchStep cp dname mangledName vfatInit st de = .error (some de) := by
  obtain ⟨hlong, hlabel, hname⟩ := hhits
  rw [searchStep, if_neg hne, hlong, if_neg Bool.false_ne_true, if_neg (not_not.mpr hlabel),
    hst.longMatch]
  by_cases hwhole : Whole (pieceCount dname.length) run
  · rw [if_pos hwhole] at hname
    obtain ⟨a, ha⟩ := hwhole.exists_mem
    rw [if_pos (decide_eq_true hwhole), if_pos ((hname a ha).symm.trans (hst.csum a ha))]
  · rw [if_neg hwhole, hmangled] at hname
    rw [if_neg (ne_true_of_eq_false (decide_eq_false hwhole)), if_pos (Option.some.inj hname)]

/-! ## The slots of a directory -/

/-- A fold that has not stopped goes on with the rest. -/
theorem foldlM_append_of_ok {ε σ α : Type*} {f : σ → α → Except ε σ} {xs ys : List α} {a b : σ}
    (h : xs.foldlM f a = .ok b) : (xs ++ ys).foldlM f a = ys.foldlM f b := by
  rw [List.foldlM_append, h]
  rfl

/-- One step of the search, as a fold. -/
theorem foldlM_singleton {ε σ α : Type*} {f : σ → α → Except ε σ} {x : α} {a b : σ}
    (h : f a x = .ok b) : [x].foldlM f a = .ok b := by
  rw [List.foldlM_cons, h]
  rfl

/-- The search goes through a run. -/
theorem foldlM_run (hst : st.Read (pieceCount dname.length) [])
    (hcount : pieceCount dname.length ≤ 20) (hdname : 0 ∉ dname) (hwaits : Waits cp dname run) :
    ∃ st', run.foldlM (searchStep cp dname mangledName
        (UInt8.ofNat (pieceCount dname.length) ||| 0x40)) st = .ok st' ∧
      st'.Read (pieceCount dname.length) run := by
  induction run using List.reverseRecOn with
  | nil => exact ⟨st, rfl, hst⟩
  | append_singleton run de ih =>
    obtain ⟨st₁, hread, hst₁⟩ := ih hwaits.of_append
    obtain ⟨st₂, hstep, hgood, -⟩ := @searchStep_continue cp dname mangledName st₁ de run _ hst₁
      hcount hdname hwaits.isRun
    refine ⟨st₂, ?_, hgood hwaits.holds⟩
    exact (foldlM_append_of_ok hread).trans (foldlM_singleton hstep)

/-- The search goes through a miss, and begins again behind it. -/
theorem foldlM_miss (hst : st.Read (pieceCount dname.length) [])
    (hcount : pieceCount dname.length ≤ 20) (hdname : 0 ∉ dname)
    (hmangled : mangleDosName cp (cStr dname) = some mangledName) {miss : List Slot}
    (hmiss : Miss cp dname miss) (hne : ∀ de ∈ miss, de 0 ≠ 0) :
    ∃ st', miss.foldlM (searchStep cp dname mangledName
        (UInt8.ofNat (pieceCount dname.length) ||| 0x40)) st = .ok st' ∧
      st'.Read (pieceCount dname.length) [] := by
  cases hmiss with
  | other hrun hwhole hnot =>
    rcases List.eq_nil_or_concat miss with rfl | ⟨run, de, rfl⟩
    · exact absurd hwhole (isRun_nil_not_whole _)
    rw [List.concat_eq_append] at *
    obtain ⟨hfront, -, hlt, -⟩ := isRun_append_iff.mp hrun
    obtain ⟨st₁, hread, hst₁⟩ := @foldlM_run cp dname mangledName st run hst hcount hdname
      ⟨hfront, fun h => absurd h hlt.ne⟩
    obtain ⟨st₂, hstep, -, hbad⟩ := @searchStep_continue cp dname mangledName st₁ de run _ hst₁
      hcount hdname hrun
    exact ⟨st₂, (foldlM_append_of_ok hread).trans (foldlM_singleton hstep), hbad hwhole hnot⟩
  | @broken run de hwaits hnot hhits =>
    obtain ⟨st₁, hread, hst₁⟩ := @foldlM_run cp dname mangledName st run hst hcount hdname hwaits
    have hstep := searchStep_broken hst₁ hcount hwaits hnot
      (hne de (List.mem_append_right _ (List.mem_singleton_self de))) hmangled hhits
    exact ⟨_, (foldlM_append_of_ok hread).trans (foldlM_singleton hstep),
      SearchState.read_notMatch hcount _⟩

/-- Runs that miss leave the search where it started. -/
theorem foldlM_misses (hst : st.Read (pieceCount dname.length) [])
    (hcount : pieceCount dname.length ≤ 20) (hdname : 0 ∉ dname)
    (hmangled : mangleDosName cp (cStr dname) = some mangledName) {misses : List (List Slot)}
    (hmisses : ∀ miss ∈ misses, Miss cp dname miss) (hne : ∀ de ∈ misses.flatten, de 0 ≠ 0) :
    ∃ st', misses.flatten.foldlM (searchStep cp dname mangledName
        (UInt8.ofNat (pieceCount dname.length) ||| 0x40)) st = .ok st' ∧
      st'.Read (pieceCount dname.length) [] := by
  induction misses generalizing st with
  | nil => exact ⟨st, rfl, hst⟩
  | cons miss misses ih =>
    rw [List.forall_mem_cons] at hmisses
    rw [List.flatten_cons, List.forall_mem_append] at hne
    obtain ⟨st₁, hread, hst₁⟩ := foldlM_miss hst hcount hdname hmangled hmisses.1 hne.1
    obtain ⟨st₂, hrest, hst₂⟩ := ih hst₁ hmisses.2 hne.2
    exact ⟨st₂, (foldlM_append_of_ok hread).trans hrest, hst₂⟩

/-- The search stops at an entry of the name. -/
theorem foldlM_hasEntry (hst : st.Read (pieceCount dname.length) [])
    (hcount : pieceCount dname.length ≤ 20) (hdname : 0 ∉ dname)
    (hmangled : mangleDosName cp (cStr dname) = some mangledName) (hentry : HasEntry cp dname slots)
    (hne : ∀ de ∈ slots, de 0 ≠ 0) :
    ∃ de, slots.foldlM (searchStep cp dname mangledName
      (UInt8.ofNat (pieceCount dname.length) ||| 0x40)) st = .error (some de) := by
  obtain ⟨misses, run, de, rest, rfl, hmisses, hwaits, hhits⟩ := hentry
  rw [List.forall_mem_append, List.forall_mem_append, List.forall_mem_cons] at hne
  obtain ⟨st₁, hfront, hst₁⟩ := foldlM_misses hst hcount hdname hmangled hmisses hne.1.1
  obtain ⟨st₂, hrun, hst₂⟩ := @foldlM_run cp dname mangledName st₁ run hst₁ hcount hdname hwaits
  have hread := (foldlM_append_of_ok hfront).trans hrun
  refine ⟨de, ?_⟩
  rw [foldlM_append_of_ok hread, List.foldlM_cons,
    searchStep_hits hst₂ hne.2.1 hmangled hhits]
  rfl

/-- A search that stops in front of an end marker comes to an entry of the name. -/
theorem hasEntry_of_foldlM (hst : st.Read (pieceCount dname.length) run)
    (hcount : pieceCount dname.length ≤ 20) (hdname : 0 ∉ dname)
    (hmangled : mangleDosName cp (cStr dname) = some mangledName) {misses : List (List Slot)}
    (hmisses : ∀ miss ∈ misses, Miss cp dname miss) (hwaits : Waits cp dname run)
    (hne : ∀ de ∈ slots, de 0 ≠ 0)
    (hstop : ∀ st', slots.foldlM (searchStep cp dname mangledName
      (UInt8.ofNat (pieceCount dname.length) ||| 0x40)) st ≠ .ok st') :
    HasEntry cp dname (misses.flatten ++ run ++ slots) := by
  induction slots generalizing st run misses with
  | nil => exact absurd rfl (hstop st)
  | cons de slots ih =>
    rw [List.forall_mem_cons] at hne
    have hnext : ∀ st₁, searchStep cp dname mangledName
        (UInt8.ofNat (pieceCount dname.length) ||| 0x40) st de = .ok st₁ →
          ∀ st', slots.foldlM (searchStep cp dname mangledName
            (UInt8.ofNat (pieceCount dname.length) ||| 0x40)) st₁ ≠ .ok st' := by
      intro st₁ hstep st' hend
      refine hstop st' ?_
      rw [List.foldlM_cons, hstep]
      exact hend
    -- The slots that are read so far, with this one: a longer run, or one more miss.
    have hlonger : misses.flatten ++ run ++ de :: slots =
        misses.flatten ++ (run ++ [de]) ++ slots := by
      simp only [List.append_assoc, List.cons_append, List.nil_append]
    have hmissed : Miss cp dname (run ++ [de]) → (∀ {st₁ : SearchState},
        st₁.Read (pieceCount dname.length) [] → (∀ st', slots.foldlM (searchStep cp dname
          mangledName (UInt8.ofNat (pieceCount dname.length) ||| 0x40)) st₁ ≠ .ok st') →
            HasEntry cp dname (misses.flatten ++ run ++ de :: slots)) := by
      intro hmiss st₁ hst₁ hgo
      have hmore : ∀ miss ∈ misses ++ [run ++ [de]], Miss cp dname miss := by
        rw [List.forall_mem_append, List.forall_mem_singleton]
        exact ⟨hmisses, hmiss⟩
      have hentry := ih hst₁ hmore waits_nil hne.2 hgo
      rwa [List.flatten_append, List.flatten_singleton, List.append_nil, ← hlonger] at hentry
    by_cases hrun : IsRun (pieceCount dname.length) (run ++ [de])
    · obtain ⟨st₁, hstep, hgood, hbad⟩ := @searchStep_continue cp dname mangledName st de run _ hst
        hcount hdname hrun
      by_cases hholds : Whole (pieceCount dname.length) (run ++ [de]) →
          HoldsName cp dname (runText (pieceCount dname.length) (run ++ [de]))
      · rw [hlonger]
        exact ih (hgood hholds) hmisses ⟨hrun, hholds⟩ hne.2 (hnext st₁ hstep)
      · push Not at hholds
        exact hmissed (.other hrun hholds.1 hholds.2) (hbad hholds.1 hholds.2) (hnext st₁ hstep)
    · by_cases hhits : Hits cp dname run de
      · exact ⟨misses, run, de, slots, rfl, hmisses, hwaits, hhits⟩
      · have hstep := searchStep_broken hst hcount hwaits hrun hne.1 hmangled hhits
        exact hmissed (.broken hwaits hrun hhits) (SearchState.read_notMatch hcount st)
          (hnext _ hstep)

/-- The search passes no end marker. -/
theorem foldlM_ok_ne {st' : SearchState}
    (h : slots.foldlM (searchStep cp dname mangledName vfatInit) st = .ok st') :
    ∀ de ∈ slots, de 0 ≠ 0 := by
  induction slots generalizing st with
  | nil => exact fun de hde => absurd hde List.not_mem_nil
  | cons de slots ih =>
    rw [List.foldlM_cons] at h
    rw [List.forall_mem_cons]
    cases hstep : searchStep cp dname mangledName vfatInit st de with
    | error result =>
      rw [hstep] at h
      exact nomatch h
    | ok st₁ =>
      rw [hstep] at h
      refine ⟨fun hzero => ?_, ih h⟩
      rw [searchStep, if_pos hzero] at hstep
      exact nomatch hstep

/-- The search passes some slots when no one is an end marker and no entry of the name is among
them. -/
theorem foldlM_find_iff (hst : st.Read (pieceCount dname.length) [])
    (hcount : pieceCount dname.length ≤ 20) (hdname : 0 ∉ dname)
    (hmangled : mangleDosName cp (cStr dname) = some mangledName) :
    (∃ st', slots.foldlM (searchStep cp dname mangledName
        (UInt8.ofNat (pieceCount dname.length) ||| 0x40)) st = .ok st') ↔
      (∀ de ∈ slots, de 0 ≠ 0) ∧ ¬HasEntry cp dname slots := by
  constructor
  · rintro ⟨st', hend⟩
    have hne : ∀ de ∈ slots, de 0 ≠ 0 := foldlM_ok_ne hend
    refine ⟨hne, fun hentry => ?_⟩
    obtain ⟨de, hstop⟩ := foldlM_hasEntry hst hcount hdname hmangled hentry hne
    rw [hend] at hstop
    exact nomatch hstop
  · rintro ⟨hne, hnot⟩
    by_contra hstop
    push Not at hstop
    exact hnot (@hasEntry_of_foldlM cp dname mangledName st [] slots hst hcount hdname hmangled []
      (fun _ h => absurd h List.not_mem_nil) waits_nil hne hstop)

end Liigboot.Fs.Fat
