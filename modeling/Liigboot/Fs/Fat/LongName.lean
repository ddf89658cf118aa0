import Liigboot.Fs.Fat.Directory

/-!
# The buffer of the long name

The ordinal of a piece says where its characters go. `vfat_readdir` takes the first ordinal
from the directory, and `vfat_find_entry` from the length of the name; after that both
count down. A first ordinal of zero wraps to 255, which lies outside of the buffer: these
slots, read before the scan stops, are the only ones that leave it.
-/

namespace Liigboot.Fs.Fat

variable {cp : Codepage} {dname : List UInt8} {de : Slot} {id : UInt8}

/-! ## Ordinals -/

/-- An initial ordinal other than zero. -/
theorem ordinal_pos (h : id &&& 0x40 ≠ 0) (h0 : id &&& 0x7f ≠ 0x40) : id &&& 0x3f ≠ 0 := by
  have hall : ∀ n < 256, UInt8.ofNat n &&& 0x40 ≠ 0 → UInt8.ofNat n &&& 0x7f ≠ 0x40 →
      UInt8.ofNat n &&& 0x3f ≠ 0 := by decide +kernel
  have hid := hall id.toNat id.toNat_lt
  rw [UInt8.ofNat_toNat] at hid
  exact hid h h0

/-- The initial ordinal zero. -/
theorem ordinal_zero (h : id &&& 0x7f = 0x40) :
    id &&& 0x40 ≠ 0 ∧ id &&& 0x3f = 0 ∧ id ≠ 0 ∧ id ≠ 0xe5 := by
  have hall : ∀ n < 256, UInt8.ofNat n &&& 0x7f = 0x40 → UInt8.ofNat n &&& 0x40 ≠ 0 ∧
      UInt8.ofNat n &&& 0x3f = 0 ∧ UInt8.ofNat n ≠ 0 ∧ UInt8.ofNat n ≠ 0xe5 := by
    decide +kernel
  have hid := hall id.toNat id.toNat_lt
  rw [UInt8.ofNat_toNat] at hid
  exact hid h

/-- The numbers of the pieces do not have the bit of the first slot. -/
theorem flag_of_lt (h : id < 20) : id &&& 0x40 = 0 := by
  have hall : ∀ n < 256, UInt8.ofNat n < 20 → UInt8.ofNat n &&& 0x40 = 0 := by decide +kernel
  have hid := hall id.toNat id.toNat_lt
  rw [UInt8.ofNat_toNat] at hid
  exact hid h

/-- The ordinal that `vfat_find_entry` asks for first. -/
theorem ordinal_of_count {n : Nat} (h : n ≤ 20) :
    (UInt8.ofNat n ||| 0x40) &&& 0x40 ≠ 0 ∧ (UInt8.ofNat n ||| 0x40) &&& 0x3f = UInt8.ofNat n := by
  have hall : ∀ n < 21, (UInt8.ofNat n ||| 0x40) &&& 0x40 ≠ 0 ∧
      (UInt8.ofNat n ||| 0x40) &&& 0x3f = UInt8.ofNat n := by decide +kernel
  exact hall n (by omega)

/-- The piece in front has a lower number. -/
theorem pred_lt {n : UInt8} (h : id ≠ 0) (hle : id ≤ n) : id - 1 < n := by
  rw [UInt8.lt_iff_toNat_lt, UInt8.toNat_sub_of_le _ _ (by
    rw [UInt8.le_iff_toNat_le]
    have hne : id.toNat ≠ 0 := fun h0 => h (UInt8.toNat_inj.mp h0)
    change 1 ≤ id.toNat
    omega)]
  have hne : id.toNat ≠ 0 := fun h0 => h (UInt8.toNat_inj.mp h0)
  have hle := UInt8.le_iff_toNat_le.mp hle
  change id.toNat - 1 < n.toNat
  omega

/-! ## Pieces -/

@[simp] theorem length_longChunk : de.longChunk.length = 13 := rfl

/-- A piece with an ordinal that the buffer has room for. -/
theorem copyLongChunk_of_lt {longName : List UInt16} (hlen : 260 ≤ longName.length)
    (hid : id < 20) :
    copyLongChunk longName id de = some (blit longName (id.toNat * 13) de.longChunk) := by
  have hlt := UInt8.lt_iff_toNat_lt.mp hid
  rw [copyLongChunk, if_pos]
  change id.toNat < 20 at hlt
  omega

/-- A piece with the ordinal that zero wraps to. -/
theorem copyLongChunk_wrapped {longName : List UInt16} (hlen : longName.length ≤ 261) :
    copyLongChunk longName (0 - 1) de = none := by
  rw [copyLongChunk, if_neg]
  change ¬255 * 13 + 13 ≤ longName.length
  omega

/-! ## The searched name -/

/-- The mangling of a string ends in front of its NUL. -/
theorem mangleLoop_ne_none (s buf : List UInt8) : mangleLoop cp (cStr s) buf ≠ none := by
  induction s generalizing buf with
  | nil =>
    rw [cStr, List.nil_append, mangleLoop]
    split <;> simp
  | cons c s ih =>
    rw [cStr, List.cons_append, mangleLoop]
    split_ifs
    · exact Option.some_ne_none _
    · exact ih _
    · exact ih _
    · exact Option.some_ne_none _

/-- So does that of a short name. -/
theorem mangleDosName_ne_none (s : List UInt8) : mangleDosName cp (cStr s) ≠ none := by
  unfold mangleDosName
  rw [ne_eq, Option.map_eq_none_iff]
  split
  · exact Option.some_ne_none _
  · exact Option.some_ne_none _
  · exact mangleLoop_ne_none s []

/-- A string is not read behind its NUL. -/
theorem vfatMatchEnd_cStr_ne_none (s : List UInt8) (padding : List UInt16) :
    vfatMatchEnd (cStr s) padding ≠ none := by
  cases s <;> simp [vfatMatchEnd, cStr]

/-- The comparison stops at the end of the name at the latest. -/
theorem vfatMatchLongname_ne_none (s : List UInt8) (longName : List UInt16) :
    vfatMatchLongname cp (cStr s) longName ≠ none := by
  induction longName generalizing s with
  | nil =>
    rw [vfatMatchLongname]
    exact vfatMatchEnd_cStr_ne_none s []
  | cons u longName ih =>
    by_cases hu : u = 0
    · rw [vfatMatchLongname.eq_def]
      simp only [hu, if_true]
      exact vfatMatchEnd_cStr_ne_none s longName
    · cases s with
      | nil =>
        simp only [vfatMatchLongname, cStr, List.nil_append, cp.uni_nul, cp.alt_nul, ne_eq, hu,
          not_false_eq_true, and_self, if_true, if_false]
        exact Option.some_ne_none _
      | cons c s =>
        simp only [vfatMatchLongname, cStr, List.cons_append, hu, if_false]
        split
        · exact Option.some_ne_none _
        · exact ih s

/-- The conversion stops at the terminator at the latest. -/
theorem vfatCvtLongname_ne_none {longName : List UInt16} (h : 0 ∈ longName) :
    vfatCvtLongname cp longName ≠ none := by
  induction longName with
  | nil => cases h
  | cons u longName ih =>
    rw [vfatCvtLongname]
    cases codeOf cp u with
    | none => exact Option.some_ne_none _
    | some c =>
      dsimp only
      split_ifs with hu
      · exact Option.some_ne_none _
      · rw [ne_eq, Option.map_eq_none_iff]
        exact ih ((List.mem_cons.mp h).resolve_left fun heq => hu heq.symm)

/-! ## `vfat_readdir` -/

/-- The slots at which `vfat_readdir` stops. -/
def readStops (de : Slot) : Bool :=
  de 0 = 0 || (de 0 ≠ 0xe5 && !de.isLong && de.attr &&& attrVolumeId = 0)

/-- A piece with the initial ordinal zero. -/
def wrapsRead (de : Slot) : Bool := de.isLong && de.id &&& 0x7f = 0x40

/-- The buffer of `vfat_readdir` ends with the terminator, and the next ordinal has room. -/
structure ReadState.Ok (st : ReadState) : Prop where
  next : st.vfatNext < 20 ∨ st.vfatNext = 0xff
  length : st.longName.length = 261
  terminated : st.longName[260]? = some 0

theorem length_blit_chunk {longName : List UInt16} (hlen : 260 ≤ longName.length) (hid : id < 20) :
    (blit longName (id.toNat * 13) de.longChunk).length = longName.length := by
  have hlt := UInt8.lt_iff_toNat_lt.mp hid
  apply length_blit
  change id.toNat < 20 at hlt
  rw [length_longChunk]
  omega

/-- A piece whose ordinal has room. -/
theorem readPiece_ok {st : ReadState} (hst : st.Ok) (h0 : id ≠ 0) (hid : id ≤ 20) :
    ∃ st', readPiece cp st id de = .next st' ∧ st'.Ok := by
  have hpred := pred_lt h0 hid
  have hlt := UInt8.lt_iff_toNat_lt.mp hpred
  change (id - 1).toNat < 20 at hlt
  have hlen : 260 ≤ st.longName.length := by
    rw [hst.length]
    decide
  have hlength := (@length_blit_chunk de _ _ hlen hpred).trans hst.length
  have hterm : (blit st.longName ((id - 1).toNat * 13) de.longChunk)[260]? = some 0 := by
    rw [getElem?_blit_of_ge (by omega) (by rw [length_longChunk]; omega)]
    exact hst.terminated
  have hmem : 0 ∈ blit st.longName ((id - 1).toNat * 13) de.longChunk :=
    List.mem_of_getElem? hterm
  unfold readPiece
  simp only [copyLongChunk_of_lt hlen hpred]
  split_ifs
  · obtain ⟨name, hname⟩ := Option.ne_none_iff_exists'.mp (@vfatCvtLongname_ne_none cp _ hmem)
    rw [hname]
    cases name with
    | none => exact ⟨_, rfl, Or.inl hpred, hlength, hterm⟩
    | some filename => exact ⟨_, rfl, Or.inl hpred, hlength, hterm⟩
  · exact ⟨_, rfl, Or.inl hpred, hlength, hterm⟩

/-- Giving up a long name leaves the buffer in order. -/
theorem ReadState.Ok.invalid {st : ReadState} (hst : st.Ok) : st.invalid.Ok :=
  ⟨hst.next, hst.length, hst.terminated⟩

/-- A slot that ends the reading. -/
theorem readStep_stops {st : ReadState} (h : readStops de = true) :
    ∃ r, readStep cp st de = .stop r := by
  simp only [readStops, Bool.or_eq_true, Bool.and_eq_true, decide_eq_true_eq, Bool.not_eq_true',
    and_assoc] at h
  unfold readStep
  rcases h with h | ⟨h5, hl, ha⟩
  · exact ⟨none, if_pos h⟩
  · rw [if_neg h5, hl, ha, if_neg Bool.false_ne_true, if_neg (not_not.mpr rfl)]
    split_ifs
    · exact ⟨none, rfl⟩
    · exact ⟨_, rfl⟩
    · exact ⟨_, rfl⟩

/-- The ordinal zero leaves the buffer. -/
theorem readStep_wraps {st : ReadState} (hw : wrapsRead de = true) :
    readStep cp st de = .fault := by
  simp only [wrapsRead, Bool.and_eq_true, decide_eq_true_eq] at hw
  obtain ⟨h40, h3f, h0, h5⟩ := ordinal_zero hw.2
  have hfault : readPiece cp { st with vfatCsum := de.checksum, longName := List.replicate 261 0 }
      (de.id &&& 0x3f) de = .fault := by
    unfold readPiece
    simp only [h3f, copyLongChunk_wrapped (Nat.le_of_eq List.length_replicate)]
  unfold readStep
  simp only [hw.1, if_true]
  rw [if_neg (show ¬de 0 = 0 from h0), if_neg (show ¬de 0 = 0xe5 from h5), if_pos h40,
    if_neg (by rw [h3f]; decide)]
  exact hfault

/-- Every other slot is read, and the buffer stays intact. -/
theorem readStep_next {st : ReadState} (hst : st.Ok) (hs : readStops de = false)
    (hw : wrapsRead de = false) : ∃ st', readStep cp st de = .next st' ∧ st'.Ok := by
  have h0 : de 0 ≠ 0 := by
    intro h
    simp [readStops, h] at hs
  unfold readStep
  dsimp only
  rw [if_neg h0]
  split_ifs with h5 hl h40 h20 hn hv
  · exact ⟨_, rfl, hst.invalid⟩
  · exact ⟨_, rfl, hst.next, hst.length, hst.terminated⟩
  · have hpos : de.id &&& 0x3f ≠ 0 := ordinal_pos h40 fun h => by simp [wrapsRead, hl, h] at hw
    refine readPiece_ok ⟨hst.next, List.length_replicate, rfl⟩ hpos ?_
    exact UInt8.le_of_lt (UInt8.not_le.mp h20)
  · exact ⟨_, rfl, hst.invalid⟩
  · rw [not_or, not_not, not_not] at hn
    rcases hst.next with hlt | hff
    · exact readPiece_ok hst h0 (UInt8.le_of_lt (hn.2 ▸ hlt))
    · rw [hn.2, hff] at h40
      exact absurd (by decide) h40
  · exact ⟨_, rfl, hst.invalid⟩
  · simp only [ne_eq, not_not] at hv
    simp [readStops, h5, hl, hv] at hs
  · simp only [ne_eq, not_not] at hv
    simp [readStops, h5, hl, hv] at hs

/-- The reading leaves the buffer if a piece in front of its end has a number that is too large. -/
theorem vfatReaddir_eq_none_iff (offset : Nat) (slots : List Slot) :
    vfatReaddir cp offset slots = none ↔ ∃ de ∈ before readStops slots, wrapsRead de = true := by
  rw [vfatReaddir, Option.map_eq_none_iff, vfatReadSlot]
  have hinit : (readInit offset).Ok := ⟨Or.inr rfl, List.length_replicate, rfl⟩
  exact @scan_eq_none_iff _ _ _ (readStep cp) _ _ ReadState.Ok wrapsRead readStops
    (fun _ _ _ h => readStep_stops h) (fun _ _ _ _ h => readStep_wraps h)
    (fun _ _ h hs hw => readStep_next h hs hw) hinit slots

/-! ## `vfat_find_entry` -/

/-- The next ordinal of `vfat_find_entry` is the initial one or has room. -/
structure FindState.Ok (vfatInit : UInt8) (st : FindState) : Prop where
  next : st.vfatNext = vfatInit ∨ st.vfatNext < 20 ∧ st.longLen ≤ 260
  length : st.longName.length = 260

variable {mangledName : List UInt8} {vfatInit : UInt8} {st : FindState}

/-- The first slot of a name clears the buffer. -/
theorem FindState.length_first (st : FindState) : (st.first id de).longName.length = 260 :=
  List.length_replicate

/-- A slot of another name leaves the buffer in order. -/
theorem FindState.Ok.notMatch (hst : st.Ok vfatInit) : (st.notMatch vfatInit).Ok vfatInit :=
  ⟨Or.inl rfl, hst.length⟩

/-- So does a piece with its number in range. -/
theorem findPiece_ok (hname : st.longName.length = 260) (hle : st.longLen ≤ 260) (h0 : id ≠ 0)
    (hid : id ≤ 20) : (findPiece cp dname vfatInit st id de).Keeps (FindState.Ok vfatInit) := by
  have hpred := pred_lt h0 hid
  have hlen : 260 ≤ st.longName.length := Nat.le_of_eq hname.symm
  have hlength := (@length_blit_chunk de _ _ hlen hpred).trans hname
  unfold findPiece
  simp only [copyLongChunk_of_lt hlen hpred]
  split_ifs with hlast hshort
  · rw [hlength] at hshort
    exact absurd hshort (Nat.not_lt.mpr hle)
  · obtain ⟨found, hfound⟩ := Option.ne_none_iff_exists'.mp
      (@vfatMatchLongname_ne_none cp dname
        ((blit st.longName ((id - 1).toNat * 13) de.longChunk).take st.longLen))
    rw [hfound]
    cases found with
    | false => exact .next ⟨Or.inl rfl, hlength⟩
    | true => exact .next ⟨Or.inr ⟨hpred, hle⟩, hlength⟩
  · exact .next ⟨Or.inr ⟨hpred, hle⟩, hlength⟩

/-- A name of `n` pieces: no slot makes `vfat_find_entry` leave the buffer. -/
theorem findStep_ok {n : Nat} (hn : n ≤ 20) (h0 : n ≠ 0)
    (hst : st.Ok (UInt8.ofNat n ||| 0x40)) :
    (findStep cp dname mangledName (UInt8.ofNat n ||| 0x40) st de).Keeps
      (FindState.Ok (UInt8.ofNat n ||| 0x40)) := by
  obtain ⟨hflag, hcount⟩ := ordinal_of_count hn
  have hn20 : UInt8.ofNat n ≤ 20 := by
    rw [UInt8.le_iff_toNat_le, UInt8.toNat_ofNat']
    change n % 256 ≤ 20
    omega
  have hne : UInt8.ofNat n ≠ 0 := by
    intro h
    have hzero := congrArg UInt8.toNat h
    rw [UInt8.toNat_ofNat'] at hzero
    change n % 256 = 0 at hzero
    omega
  unfold findStep
  split_ifs with hend hlong hid h40 hcsum hvol hmatch hsum hmangled
  · exact .stop
  · exact .next hst.notMatch
  · rw [not_not] at hid
    -- Only the initial ordinal has the flag.
    have hinit : st.vfatNext = UInt8.ofNat n ||| 0x40 :=
      hst.next.resolve_right fun hlt => h40 (hid ▸ flag_of_lt hlt.1)
    have hval : de.id &&& 0x3f = UInt8.ofNat n := by rw [hid, hinit, hcount]
    have hle : (UInt8.ofNat n).toNat ≤ 20 := UInt8.le_iff_toNat_le.mp hn20
    have hlen : (st.first (UInt8.ofNat n) de).longLen ≤ 260 := by
      change (UInt8.ofNat n).toNat * 13 ≤ 260
      omega
    rw [hval]
    exact findPiece_ok st.length_first hlen hne hn20
  · exact .next hst.notMatch
  · rw [not_not] at hid
    rcases hst.next with heq | hlt
    · rw [hid, heq] at h40
      exact absurd hflag h40
    · exact findPiece_ok hst.length hlt.2 hend (UInt8.le_of_lt (hid ▸ hlt.1))
  · exact .next hst.notMatch
  · exact .stop
  · exact .next hst.notMatch
  · exact .stop
  · exact .next hst.notMatch

/-- The slots at which the search for the empty name stops. -/
def findStops (de : Slot) : Bool :=
  de 0 = 0 || (!de.isLong && de.attr &&& attrVolumeId = 0 && de.name = List.replicate 11 0x20)

/-- A piece with the ordinal that `vfat_find_entry` asks for when the name is empty. -/
def wrapsFind (de : Slot) : Bool := de.isLong && de.id = 0x40

/-- The state while the empty name is searched. -/
structure FindState.Empty (st : FindState) : Prop where
  next : st.vfatNext = 0x40
  noMatch : st.longMatch = false

/-- A slot that ends the search. -/
theorem findStep_stops (hst : st.Empty) (h : findStops de = true) :
    ∃ r, findStep cp [] (List.replicate 11 0x20) 0x40 st de = .stop r := by
  simp only [findStops, Bool.or_eq_true, Bool.and_eq_true, decide_eq_true_eq, Bool.not_eq_true',
    and_assoc] at h
  unfold findStep
  rcases h with h | ⟨hl, ha, hname⟩
  · exact ⟨none, if_pos h⟩
  · rw [hl, ha, hst.noMatch, hname, if_neg Bool.false_ne_true, if_neg (not_not.mpr rfl),
      if_neg Bool.false_ne_true, if_pos rfl]
    split_ifs
    · exact ⟨none, rfl⟩
    · exact ⟨some de, rfl⟩

/-- A piece with a number that is too large is out of the buffer. -/
theorem findStep_wraps (hst : st.Empty) (hw : wrapsFind de = true) :
    findStep cp [] (List.replicate 11 0x20) 0x40 st de = .fault := by
  simp only [wrapsFind, Bool.and_eq_true, decide_eq_true_eq] at hw
  have hid : de 0 = 0x40 := hw.2
  have hlen : (st.first 0 de).longName.length ≤ 261 :=
    (Nat.le_of_eq st.length_first).trans (by decide)
  have hfault : findPiece cp [] 0x40 (st.first 0 de) 0 de = .fault := by
    unfold findPiece
    simp only [copyLongChunk_wrapped hlen]
  have hflag : (0x40 : UInt8) &&& 0x40 ≠ 0 := by decide
  unfold findStep
  rw [if_neg (show ¬de 0 = 0 by rw [hid]; decide), if_pos hw.1, hw.2, hst.next,
    if_neg (not_not.mpr rfl), if_pos hflag]
  exact hfault

/-- Other slots are passed by. -/
theorem findStep_next (hst : st.Empty) (hs : findStops de = false) (hw : wrapsFind de = false) :
    ∃ st', findStep cp [] (List.replicate 11 0x20) 0x40 st de = .next st' ∧ st'.Empty := by
  have hkeep : (st.notMatch 0x40).Empty := ⟨rfl, rfl⟩
  unfold findStep
  rw [hst.next, hst.noMatch, if_neg Bool.false_ne_true]
  split_ifs with hend hlong hid h40 hcsum hvol hmangled
  · simp [findStops, hend] at hs
  · exact ⟨_, rfl, hkeep⟩
  · rw [not_not] at hid
    simp [wrapsFind, hlong, hid] at hw
  · exact ⟨_, rfl, hkeep⟩
  · rw [not_not] at hid
    simp [wrapsFind, hlong, hid] at hw
  · exact ⟨_, rfl, hkeep⟩
  · rw [not_not] at hvol
    simp [findStops, hlong, hvol, hmangled.symm] at hs
  · exact ⟨_, rfl, hkeep⟩

/-- The search leaves the buffer if a piece in front of its end has a number that is too large. -/
theorem vfatFindSlot_nil_eq_none_iff (slots : List Slot) :
    vfatFindSlot cp [] slots = none ↔ ∃ de ∈ before findStops slots, wrapsFind de = true := by
  have hmangled : mangleDosName cp (cStr []) = some (List.replicate 11 0x20) := rfl
  have hslots : vfatFindSlot cp [] slots = scan (findStep cp [] (List.replicate 11 0x20) 0x40)
      (fun _ => none) ⟨0x40, 0, List.replicate 260 0, 832, false⟩ slots := by
    unfold vfatFindSlot
    rw [hmangled]
    rfl
  rw [hslots]
  have hinit : FindState.Empty ⟨0x40, 0, List.replicate 260 0, 832, false⟩ := ⟨rfl, rfl⟩
  exact @scan_eq_none_iff _ _ _ (findStep cp [] (List.replicate 11 0x20) 0x40) _ _
    FindState.Empty wrapsFind findStops (fun _ _ h hs => findStep_stops h hs)
    (fun _ _ h _ hw => findStep_wraps h hw) (fun _ _ h hs hw => findStep_next h hs hw) hinit slots

/-- A name that is not empty is searched in any directory. -/
theorem vfatFindSlot_ne_none (hne : dname ≠ []) (slots : List Slot) :
    vfatFindSlot cp dname slots ≠ none := by
  have hpos := List.length_pos_iff.mpr hne
  unfold vfatFindSlot
  dsimp only
  split_ifs with hlong
  · exact Option.some_ne_none _
  · obtain ⟨mangledName, hmangled⟩ :=
      Option.ne_none_iff_exists'.mp (@mangleDosName_ne_none cp dname)
    rw [hmangled, Option.bind_some]
    refine scan_ne_none (FindState.Ok (UInt8.ofNat ((dname.length + 12) / 13) ||| 0x40))
      (fun st de hst => findStep_ok (by omega) (by omega) hst) ?_ slots
    exact ⟨Or.inl rfl, List.length_replicate⟩

/-! ## The condition -/

/-- The stores to the buffer and the reads of the name stay inside, unless a piece with an
initial ordinal of zero is read: for `vfat_find_entry` only when the name is empty. -/
theorem vfat_buffers_iff (cp : Codepage) (sectorShift : Nat) (sbi : FatSbInfo)
    (rootCluster : UInt32) (dname : List UInt8) (offset : Nat) (slots : List Slot) :
    (vfatFindEntry cp sectorShift sbi rootCluster dname slots ≠ none ↔
        dname ≠ [] ∨ ∀ de ∈ before findStops slots, wrapsFind de = false) ∧
      (vfatReaddir cp offset slots ≠ none ↔
        ∀ de ∈ before readStops slots, wrapsRead de = false) := by
  have hall : ∀ {stops wraps : Slot → Bool}, (¬∃ de ∈ before stops slots, wraps de = true) ↔
      ∀ de ∈ before stops slots, wraps de = false := by
    intro stops wraps
    simp only [not_exists, not_and, Bool.not_eq_true]
  constructor
  · rw [vfatFindEntry, ne_eq, Option.map_eq_none_iff]
    rcases eq_or_ne dname [] with rfl | hne
    · rw [vfatFindSlot_nil_eq_none_iff, hall]
      exact ⟨Or.inr, fun h => h.resolve_left fun hnil => hnil rfl⟩
    · exact ⟨fun _ => Or.inl hne, fun _ => vfatFindSlot_ne_none hne slots⟩
  · rw [ne_eq, vfatReaddir_eq_none_iff, hall]

/-- A slot whose first byte and attributes are given. -/
def sampleSlot (first attr : UInt8) : Slot := fun k =>
  if k = 0 then first else if k = 11 then attr else 0

/-- A directory with one piece, of ordinal `0x40`: both functions leave the buffer. -/
theorem vfat_buffers_overrun : ¬∀ (dname : List UInt8) (slots : List Slot),
    vfatFindEntry codepage 9 ⟨1, 19, 33, 2847, 14, 0, 9, .fat12⟩ 0 dname slots ≠ none ∧
      vfatReaddir codepage 0 slots ≠ none := by
  intro h
  have hbefore : before readStops [sampleSlot 0x40 0x0f] = [sampleSlot 0x40 0x0f] := rfl
  refine (h [] [sampleSlot 0x40 0x0f]).2 ((vfatReaddir_eq_none_iff 0 _).mpr ?_)
  rw [hbefore]
  exact ⟨sampleSlot 0x40 0x0f, List.mem_singleton_self _, rfl⟩

end Liigboot.Fs.Fat
