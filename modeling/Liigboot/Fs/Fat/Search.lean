import Liigboot.Fs.Fat.Runs
import Liigboot.Fs.Fat.Sectors

/-!
# The sectors that `vfat_find_entry` reads

The search follows `get_next_sector` without a bound on the number of sectors. It ends where it
comes to an entry of the name or to an end marker, or where the sectors end; a chain of clusters
that leads back into itself has no end.
-/

namespace Liigboot.Fs.Fat

/-! ## The loop -/

/-- `while (dir_sector)` of `vfat_find_entry`. There is no result while the loop runs. -/
def findSectors (cp : Codepage) (fs : FatFs) (dname mangledName : List UInt8) (vfatInit : UInt8) :
    Nat → SearchState → Nat → Option (Option Slot)
  | 0, _, _ => none
  | fuel + 1, st, dirSector =>
    if dirSector = 0 then some none
    else
      match (slotsFrom (fs.disk dirSector) 0 fs.entriesPerSector).foldlM
          (searchStep cp dname mangledName vfatInit) st with
      | .error result => some result
      | .ok st => findSectors cp fs dname mangledName vfatInit fuel st (getNextSector fs dirSector)

/-- The variables before the loop; `memory` is what lies from `long_name` on. -/
def searchInit (count : Nat) (memory : Nat → UInt16) : SearchState where
  vfatNext := UInt8.ofNat count ||| 0x40
  vfatCsum := 0
  longName := memory
  longLen := (UInt8.ofNat count ||| 0x40).toNat * 13
  longMatch := false

/-- `vfat_find_entry` in the directory that starts at a sector. Every string has a mangled name. -/
def vfatFindEntryAt (cp : Codepage) (fs : FatFs) (rootCluster : UInt32) (memory : Nat → UInt16)
    (fuel start : Nat) (dname : List UInt8) : Option (Option Found) :=
  let count := pieceCount dname.length
  if count > 20 then some none
  else
    (findSectors cp fs dname ((mangleDosName cp (cStr dname)).getD []) (UInt8.ofNat count ||| 0x40)
      fuel (searchInit count memory) start).map fun found =>
        found.map (foundInode fs.sectorShift fs.sbi rootCluster)

/-- The slots of the first `n` sectors from a sector on. -/
def dirSlots (fs : FatFs) : Nat → Nat → List Slot
  | _, 0 => []
  | sector, n + 1 =>
    slotsFrom (fs.disk sector) 0 fs.entriesPerSector ++ dirSlots fs (getNextSector fs sector) n

variable {cp : Codepage} {fs : FatFs} {dname mangledName : List UInt8} {vfatInit : UInt8}
  {st : SearchState} {de : Slot} {run slots rest : List Slot} {count fuel start : Nat}

/-! ## The sectors of a directory -/

/-- The loop has not returned as long as the sectors go on and their slots do not stop it. -/
theorem findSectors_eq_none_iff :
    findSectors cp fs dname mangledName vfatInit fuel st start = none ↔
      ∀ n < fuel, chain (getNextSector fs) start n ≠ 0 ∧
        ∃ st', (dirSlots fs start (n + 1)).foldlM (searchStep cp dname mangledName vfatInit) st =
          .ok st' := by
  induction fuel generalizing st start with
  | zero => exact ⟨fun _ n hn => absurd hn (Nat.not_lt_zero n), fun _ => rfl⟩
  | succ fuel ih =>
    have hfirst : ∀ n, (dirSlots fs start (n + 1)).foldlM
        (searchStep cp dname mangledName vfatInit) st =
          match (slotsFrom (fs.disk start) 0 fs.entriesPerSector).foldlM
            (searchStep cp dname mangledName vfatInit) st with
          | .error result => .error result
          | .ok st' => (dirSlots fs (getNextSector fs start) n).foldlM
              (searchStep cp dname mangledName vfatInit) st' := fun n => by
      rw [dirSlots, List.foldlM_append]
      cases (slotsFrom (fs.disk start) 0 fs.entriesPerSector).foldlM
        (searchStep cp dname mangledName vfatInit) st <;> rfl
    rw [findSectors]
    by_cases hzero : start = 0
    · rw [if_pos hzero]
      exact ⟨fun h => (nomatch h), fun h => absurd hzero (h 0 (Nat.succ_pos _)).1⟩
    · rw [if_neg hzero]
      generalize (slotsFrom (fs.disk start) 0 fs.entriesPerSector).foldlM
        (searchStep cp dname mangledName vfatInit) st = outcome at hfirst ⊢
      cases outcome with
      | error result =>
        refine ⟨fun h => (nomatch h), fun h => ?_⟩
        obtain ⟨-, st', hst'⟩ := h 0 (Nat.succ_pos _)
        rw [hfirst] at hst'
        cases hst'
      | ok st₁ =>
        dsimp only at hfirst ⊢
        rw [ih]
        constructor
        · intro h n hn
          cases n with
          | zero => exact ⟨hzero, st₁, hfirst 0⟩
          | succ n =>
            obtain ⟨hne, hgo⟩ := h n (Nat.lt_of_succ_lt_succ hn)
            rw [chain_next] at hne
            rw [hfirst]
            exact ⟨hne, hgo⟩
        · intro h n hn
          obtain ⟨hne, hgo⟩ := h (n + 1) (Nat.succ_lt_succ hn)
          rw [hfirst] at hgo
          rw [chain_next]
          exact ⟨hne, hgo⟩

/-- The loop never returns when the sectors go on for ever and hold no end marker and no entry of
the name. -/
theorem findSectors_forever_iff (hst : st.Read (pieceCount dname.length) [])
    (hcount : pieceCount dname.length ≤ 20) (hdname : 0 ∉ dname)
    (hmangled : mangleDosName cp (cStr dname) = some mangledName) :
    (∀ fuel, findSectors cp fs dname mangledName
        (UInt8.ofNat (pieceCount dname.length) ||| 0x40) fuel st start = none) ↔
      (∀ n, chain (getNextSector fs) start n ≠ 0) ∧ (∀ n, ∀ de ∈ dirSlots fs start n, de 0 ≠ 0) ∧
        ∀ n, ¬HasEntry cp dname (dirSlots fs start n) := by
  constructor
  · intro h
    have hgo := fun n => findSectors_eq_none_iff.mp (h (n + 1)) n (Nat.lt_succ_self n)
    have hpass : ∀ n, (∀ de ∈ dirSlots fs start n, de 0 ≠ 0) ∧
        ¬HasEntry cp dname (dirSlots fs start n) := by
      intro n
      refine (foldlM_find_iff hst hcount hdname hmangled).mp ?_
      cases n with
      | zero => exact ⟨st, rfl⟩
      | succ n => exact (hgo n).2
    exact ⟨fun n => (hgo n).1, fun n => (hpass n).1, fun n => (hpass n).2⟩
  · rintro ⟨hchain, hne, hnot⟩ fuel
    rw [findSectors_eq_none_iff]
    exact fun n _ => ⟨hchain n,
      (foldlM_find_iff hst hcount hdname hmangled).mpr ⟨hne (n + 1), hnot (n + 1)⟩⟩

/-- The search has an end: the name is too long for one, the sectors of the directory have an end,
one of its slots is an end marker, or an entry of the name is among the slots of its first
sectors. -/
theorem vfatFindEntry_ends_iff (cp : Codepage) (fs : FatFs) (rootCluster : UInt32)
    (memory : Nat → UInt16) (start : Nat) (dname : List UInt8) (hdname : 0 ∉ dname) :
    (∃ fuel, vfatFindEntryAt cp fs rootCluster memory fuel start dname ≠ none) ↔
      20 < pieceCount dname.length ∨ (∃ n, chain (getNextSector fs) start n = 0) ∨
        (∃ n, ∃ de ∈ dirSlots fs start n, de 0 = 0) ∨
        ∃ n, HasEntry cp dname (dirSlots fs start n) := by
  by_cases hlong : pieceCount dname.length > 20
  · refine ⟨fun _ => Or.inl hlong, fun _ => ⟨0, ?_⟩⟩
    rw [vfatFindEntryAt, if_pos hlong]
    exact Option.some_ne_none _
  have hcount := Nat.le_of_not_lt hlong
  obtain ⟨mangledName, hmangled⟩ :=
    Option.ne_none_iff_exists'.mp (@mangleDosName_ne_none cp dname)
  have hinit : (searchInit (pieceCount dname.length) memory).Read (pieceCount dname.length) [] :=
    SearchState.read_notMatch hcount (searchInit (pieceCount dname.length) memory)
  have hloop : ∀ fuel, vfatFindEntryAt cp fs rootCluster memory fuel start dname = none ↔
      findSectors cp fs dname mangledName (UInt8.ofNat (pieceCount dname.length) ||| 0x40) fuel
        (searchInit (pieceCount dname.length) memory) start = none := by
    intro fuel
    rw [vfatFindEntryAt, if_neg hlong, hmangled]
    exact Option.map_eq_none_iff
  have hforever := @findSectors_forever_iff cp fs dname mangledName _ start hinit hcount hdname
    hmangled
  rw [← not_iff_not]
  push Not
  simp only [hloop]
  rw [hforever]
  exact ⟨fun h => ⟨hcount, h⟩, fun h => h.2⟩

/-! ## Searches that stay in the buffer -/

/-- The buffer is the memory from `long_name` on. -/
def SameBuffer (longName : List UInt16) (memory : Nat → UInt16) : Prop :=
  ∀ i < 260, longName[i]? = some (memory i)

/-- The buffers are the same as soon as a piece is stored. -/
structure FindState.Same (fst : FindState) (st : SearchState) : Prop where
  next : st.vfatNext = fst.vfatNext
  csum : st.vfatCsum = fst.vfatCsum
  longLen : st.longLen = fst.longLen
  longMatch : st.longMatch = fst.longMatch
  length : fst.longName.length = 260
  longName : fst.vfatNext &&& 0x40 = 0 → SameBuffer fst.longName st.longName

/-- What a round does when it stays in the buffer. -/
inductive SameRound : ScanStep FindState (Option Slot) → Except (Option Slot) SearchState → Prop
  | fault {outcome : Except (Option Slot) SearchState} : SameRound .fault outcome
  | stop {result : Option Slot} : SameRound (.stop result) (.error result)
  | next {fst : FindState} {st : SearchState} (h : fst.Same st) : SameRound (.next fst) (.ok st)

theorem FindState.Same.notMatch {fst : FindState} (h : fst.Same st) (hinit : vfatInit &&& 0x40 ≠ 0) :
    (fst.notMatch vfatInit).Same (st.notMatch vfatInit) :=
  ⟨rfl, h.csum, h.longLen, rfl, h.length, fun hflag => absurd hflag hinit⟩

theorem sameBuffer_zero {memory : Nat → UInt16} :
    SameBuffer (List.replicate 260 0) fun i => if i < 260 then 0 else memory i := by
  intro i hi
  rw [List.getElem?_replicate, if_pos hi]
  exact congrArg some (if_pos hi).symm

theorem FindState.Same.first {fst : FindState} (h : fst.Same st) (id : UInt8) (de : Slot) :
    (fst.first id de).Same (st.first id de) :=
  ⟨h.next, rfl, rfl, h.longMatch, List.length_replicate, fun _ => sameBuffer_zero⟩

/-- A piece that is stored inside the buffer. -/
theorem FindState.Same.piece {fst : FindState} (h : fst.Same st)
    (hbuffer : SameBuffer fst.longName st.longName) (id : UInt8) (de : Slot) :
    SameRound (findPiece cp dname vfatInit fst id de)
      (.ok (searchPiece cp dname vfatInit st id de)) := by
  rw [findPiece, copyLongChunk, h.length, searchPiece]
  dsimp only
  by_cases hroom : (id - 1).toNat * 13 + 13 ≤ 260
  · rw [if_pos hroom]
    have hle : (id - 1).toNat * 13 ≤ fst.longName.length := by
      rw [h.length]
      omega
    have hlength : (blit fst.longName ((id - 1).toNat * 13) de.longChunk).length = 260 := by
      rw [length_blit (by rw [length_longChunk, h.length]; exact hroom), h.length]
    have hstored : SameBuffer (blit fst.longName ((id - 1).toNat * 13) de.longChunk)
        (storeLongChunk st.longName (id - 1) de) := by
      intro i hi
      rw [getElem?_blit hle, length_longChunk, storeLongChunk]
      split_ifs with hlow hhigh hin hin
      · omega
      · exact hbuffer i hi
      · have hplace : i - (id - 1).toNat * 13 < de.longChunk.length := by
          rw [length_longChunk]
          omega
        rw [List.getD_eq_getElem?_getD, List.getElem?_eq_getElem hplace]
        rfl
      · omega
      · omega
      · exact hbuffer i hi
    dsimp only
    rw [hlength]
    by_cases hzero : id - 1 = 0
    · rw [if_pos hzero, if_pos hzero]
      by_cases hshort : 260 < fst.longLen
      · rw [if_pos hshort]
        exact .fault
      have htext : (blit fst.longName ((id - 1).toNat * 13) de.longChunk).take fst.longLen =
          SearchState.text { st with
            vfatNext := id - 1
            longName := storeLongChunk st.longName (id - 1) de } := by
        rw [SearchState.text, h.longLen]
        refine List.ext_getElem? fun i => ?_
        rw [List.getElem?_take, List.getElem?_map]
        split_ifs with hi
        · rw [hstored i (by omega), List.getElem?_range hi]
          rfl
        · rw [List.getElem?_eq_none (by rw [List.length_range]; omega)]
          rfl
      obtain ⟨found, hfound⟩ := Option.ne_none_iff_exists'.mp (@vfatMatchLongname_ne_none cp dname
        (SearchState.text { st with
          vfatNext := id - 1
          longName := storeLongChunk st.longName (id - 1) de }))
      rw [if_neg hshort, htext, hfound]
      cases found with
      | false => exact .next ⟨rfl, h.csum, h.longLen, rfl, hlength, fun _ => hstored⟩
      | true => exact .next ⟨rfl, h.csum, h.longLen, rfl, hlength, fun _ => hstored⟩
    · rw [if_neg hzero, if_neg hzero]
      exact .next ⟨rfl, h.csum, h.longLen, h.longMatch, hlength, fun _ => hstored⟩
  · rw [if_neg hroom]
    exact .fault

/-- A round that stays in the buffer. -/
theorem FindState.Same.step {fst : FindState} (h : fst.Same st) (hinit : vfatInit &&& 0x40 ≠ 0)
    (de : Slot) :
    SameRound (findStep cp dname mangledName vfatInit fst de)
      (searchStep cp dname mangledName vfatInit st de) := by
  rw [findStep, searchStep, h.next, h.csum, h.longMatch]
  split_ifs with hend hlong hid hflag
  · exact .stop
  · exact .next (h.notMatch hinit)
  · exact (h.first _ de).piece sameBuffer_zero _ de
  · exact .next (h.notMatch hinit)
  · rw [not_not] at hid hflag
    exact h.piece (h.longName (hid ▸ hflag)) _ de
  · exact .next (h.notMatch hinit)
  · exact .stop
  · exact .next (h.notMatch hinit)
  · exact .stop
  · exact .next (h.notMatch hinit)

/-- A scan of a sector that stays in the buffer. -/
theorem FindState.Same.block {fst : FindState} (h : fst.Same st) (hinit : vfatInit &&& 0x40 ≠ 0)
    (slots : List Slot) :
    SameRound (scanBlock (findStep cp dname mangledName vfatInit) fst slots)
      (slots.foldlM (searchStep cp dname mangledName vfatInit) st) := by
  induction slots generalizing fst st with
  | nil => exact .next h
  | cons de slots ih =>
    have hround := @FindState.Same.step cp dname mangledName vfatInit st fst h hinit de
    rw [scanBlock, List.foldlM_cons]
    generalize findStep cp dname mangledName vfatInit fst de = round at hround ⊢
    generalize searchStep cp dname mangledName vfatInit st de = round' at hround ⊢
    cases hround with
    | fault => exact .fault
    | stop => exact .stop
    | next hsame => exact ih hsame

/-- Where the sectors of the directory end, the loop has scanned the slots of all of them. -/
theorem findSectors_eq_scan {n : Nat} {fst : FindState} (h : fst.Same st)
    (hinit : vfatInit &&& 0x40 ≠ 0) (hend : chain (getNextSector fs) start n = 0)
    (hfirst : ∀ m < n, chain (getNextSector fs) start m ≠ 0) {result : Option Slot}
    (hscan : scan (findStep cp dname mangledName vfatInit) (fun _ => none) fst
      (dirSlots fs start n) = some result) :
    findSectors cp fs dname mangledName vfatInit (n + 1) st start = some result := by
  induction n generalizing st start fst with
  | zero =>
    have hzero : start = 0 := hend
    obtain rfl := Option.some.inj hscan
    rw [findSectors, if_pos hzero]
  | succ n ih =>
    have hne : start ≠ 0 := hfirst 0 (Nat.succ_pos n)
    rw [dirSlots, scan_append] at hscan
    have hblock := @FindState.Same.block cp dname mangledName vfatInit st fst h hinit
      (slotsFrom (fs.disk start) 0 fs.entriesPerSector)
    rw [findSectors, if_neg hne]
    generalize scanBlock (findStep cp dname mangledName vfatInit) fst
      (slotsFrom (fs.disk start) 0 fs.entriesPerSector) = block at hblock hscan
    generalize (slotsFrom (fs.disk start) 0 fs.entriesPerSector).foldlM
      (searchStep cp dname mangledName vfatInit) st = block' at hblock ⊢
    cases hblock with
    | fault => exact nomatch hscan
    | stop => exact hscan
    | next hsame =>
      refine ih hsame ((chain_next _ start n).trans hend) (fun m hm => ?_) hscan
      rw [chain_next]
      exact hfirst (m + 1) (Nat.succ_lt_succ hm)

/-- Where the sectors of the directory end, a search of their slots that stays in the buffer tells
what the loop finds. -/
theorem vfatFindEntryAt_eq {rootCluster : UInt32} {memory : Nat → UInt16} {n : Nat}
    {found : Option Found} (hend : chain (getNextSector fs) start n = 0)
    (hfirst : ∀ m < n, chain (getNextSector fs) start m ≠ 0)
    (hfound : vfatFindEntry cp fs.sectorShift fs.sbi rootCluster dname (dirSlots fs start n) =
      some found) :
    vfatFindEntryAt cp fs rootCluster memory (n + 1) start dname = some found := by
  obtain ⟨mangledName, hmangled⟩ :=
    Option.ne_none_iff_exists'.mp (@mangleDosName_ne_none cp dname)
  obtain ⟨slot, hslot, rfl⟩ := Option.map_eq_some_iff.mp hfound
  rw [vfatFindSlot] at hslot
  dsimp only at hslot
  rw [vfatFindEntryAt, pieceCount]
  by_cases hlong : (dname.length + 12) / 13 > 20
  · rw [if_pos hlong] at hslot ⊢
    obtain rfl := Option.some.inj hslot
    rfl
  rw [if_neg hlong, hmangled, Option.bind_some] at hslot
  have hflag := (ordinal_of_count (Nat.le_of_not_lt hlong)).1
  have hsame : FindState.Same ⟨UInt8.ofNat ((dname.length + 12) / 13) ||| 0x40, 0,
      List.replicate 260 0, (UInt8.ofNat ((dname.length + 12) / 13) ||| 0x40).toNat * 13, false⟩
      (searchInit ((dname.length + 12) / 13) memory) :=
    ⟨rfl, rfl, rfl, rfl, List.length_replicate, fun hzero => absurd hzero hflag⟩
  rw [if_neg hlong, hmangled, Option.getD_some,
    findSectors_eq_scan hsame hflag hend hfirst hslot]
  rfl

/-! ## Examples -/

/-- A volume on which cluster 2 is followed by itself, with some data in its sector. -/
def cyclicFat (data : List UInt8) (hdata : data.length = 512) : FatFs where
  sectorShift := 9
  sbi := ⟨1, 2, 3, 7, 1, 0, 9, .fat12⟩
  disk p :=
    if p = 1 then [0xf8, 0xff, 0xff, 2, 0, 0] ++ List.replicate 506 0
    else data
  shift_ge := usualShift_ge
  valid := smallSbi_valid
  disk_length p := by
    split
    · rw [List.length_append, List.length_replicate]
      decide
    · exact hdata

/-- A volume label, and behind it the kernel. -/
def kernelSector : List UInt8 :=
  List.replicate 32 8 ++ kernelBytes.flatten ++ List.replicate 384 8

set_option maxRecDepth 4096 in
/-- The kernel is found in a directory whose chain of clusters leads back into itself. -/
theorem vfatFindEntry_ends_iff_sample : ∃ fuel, vfatFindEntryAt codepage
    (cyclicFat kernelSector (by decide +kernel)) 0 (fun _ => 0) fuel 3
      [0x76, 0x6d, 0x6c, 0x69, 0x6e, 0x75, 0x7a, 0x2d, 0x36, 0x2e, 0x31, 0x2e, 0x69, 0x6d, 0x67] ≠
        none := by
  have hsums : ∀ a ∈ runPieces 2 [slotAt kernelSector 32, slotAt kernelSector 64],
      a.checksum = 0xF8 := by
    intro a ha
    have hmap : (runPieces 2 [slotAt kernelSector 32, slotAt kernelSector 64]).map Slot.checksum =
        List.replicate 2 0xF8 := by
      decide +kernel
    exact List.eq_of_mem_replicate (hmap ▸ List.mem_map_of_mem ha)
  refine (vfatFindEntry_ends_iff codepage _ 0 _ 3 _ (by decide)).mpr
    (Or.inr (Or.inr (Or.inr ⟨1, ?_⟩)))
  refine ⟨[[slotAt kernelSector 0]], [slotAt kernelSector 32, slotAt kernelSector 64],
    slotAt kernelSector 96, slotsFrom kernelSector 128 12, rfl, ?_, ⟨⟨?_, ?_, ?_⟩, ?_⟩, ?_⟩
  · rw [List.forall_mem_singleton]
    refine @Miss.broken _ _ [] _ waits_nil (fun h => ?_) fun h => ?_
    · exact absurd (h.isLong _ List.mem_cons_self) (by decide +kernel)
    · exact absurd h.2.1 (by decide +kernel)
  · exact List.forall_mem_cons.mpr ⟨by decide +kernel,
      List.forall_mem_singleton.mpr (by decide +kernel)⟩
  · decide +kernel
  · exact fun a ha b hb => (hsums a ha).trans (hsums b hb).symm
  · exact fun _ => (vfatMatchLongname_iff (by decide)).mp (by decide +kernel)
  · refine ⟨by decide +kernel, by decide +kernel, ?_⟩
    rw [if_pos (by decide +kernel)]
    exact fun a ha => (hsums a ha).trans (by decide +kernel)

/-- A directory of volume labels. -/
def labelFat : FatFs := cyclicFat (List.replicate 512 8) List.length_replicate

/-- Volume labels are skipped. -/
theorem searchStep_label (hne : de 0 ≠ 0) (hattr : de.attr = 8) :
    searchStep cp dname mangledName vfatInit st de = .ok (st.notMatch vfatInit) := by
  have hlong : ¬de.isLong = true := by
    rw [Slot.isLong, hattr]
    decide
  have hlabel : de.attr &&& attrVolumeId ≠ 0 := by
    rw [hattr]
    decide
  rw [searchStep, if_neg hne, if_neg hlong, if_pos hlabel]

/-- The search of a directory whose chain of clusters leads back into itself does not end. -/
theorem vfatFindEntry_cyclic : ¬∀ (cp : Codepage) (fs : FatFs) (rootCluster : UInt32)
    (memory : Nat → UInt16) (start : Nat) (dname : List UInt8), 0 ∉ dname →
      ∃ fuel, vfatFindEntryAt cp fs rootCluster memory fuel start dname ≠ none := by
  intro h
  obtain ⟨fuel, hends⟩ := h codepage labelFat 0 (fun _ => 0) 3 [0x61] (by decide)
  have hnext : getNextSector labelFat 3 = 3 := by decide +kernel
  have hslots : (slotsFrom (labelFat.disk 3) 0 labelFat.entriesPerSector).all
      fun de => de 0 = 8 ∧ de.attr = 8 := by
    decide +kernel
  have hpass : ∀ slots : List Slot, (∀ de ∈ slots, de 0 = 8 ∧ de.attr = 8) → ∀ mangledName,
      slots.foldlM (searchStep codepage [0x61] mangledName 0x41) (searchInit 1 fun _ => 0) =
        .ok (searchInit 1 fun _ => 0) := by
    intro slots hlabels mangledName
    induction slots with
    | nil => rfl
    | cons de slots ih =>
      rw [List.forall_mem_cons] at hlabels
      obtain ⟨⟨hfirst, hattr⟩, hlabels⟩ := hlabels
      rw [List.foldlM_cons, searchStep_label (by rw [hfirst]; decide) hattr]
      exact ih hlabels
  have hloop : ∀ mangledName fuel, findSectors codepage labelFat [0x61] mangledName 0x41 fuel
      (searchInit 1 fun _ => 0) 3 = none := by
    intro mangledName fuel
    induction fuel with
    | zero => rfl
    | succ fuel ih =>
      rw [findSectors, if_neg (by decide), hpass _ fun de hde =>
        of_decide_eq_true (List.all_eq_true.mp hslots de hde), hnext]
      exact ih
  rw [vfatFindEntryAt, if_neg (by decide)] at hends
  refine hends ?_
  rw [Option.map_eq_none_iff]
  exact hloop _ fuel

end Liigboot.Fs.Fat
