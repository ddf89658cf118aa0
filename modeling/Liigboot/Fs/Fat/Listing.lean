import Liigboot.Fs.Fat.Lookup
import Mathlib.Data.List.Induction

/-!
# Listing a well-formed directory

`vfat_readdir` is called with an offset in front of an item, and returns the next entry under one
of its names. The offset that it leaves is in front of an item again.
-/

namespace Liigboot.Fs.Fat

variable {cp : Codepage} {csum : UInt8} {text : List UInt16} {n total : Nat} {de : Slot}
  {slots rest : List Slot}

/-- The rounds of `vfat_readdir`, from a state on. -/
def readFrom (cp : Codepage) (st : ReadState) (slots : List Slot) :
    Option (Option (Slot × ReadState)) :=
  scan (readStep cp) (fun _ => none) st slots

/-- A step that goes on goes to the next entry. -/
theorem readFrom_next {st st' : ReadState} (h : readStep cp st de = .next st') :
    readFrom cp st (de :: rest) = readFrom cp st' rest :=
  scan_next h

/-- A step that stops ends the call. -/
theorem readFrom_stop {st : ReadState} {result : Option (Slot × ReadState)}
    (h : readStep cp st de = .stop result) : readFrom cp st (de :: rest) = some result :=
  scan_stop h

/-! ## The pieces of a long name -/

/-- No piece of a long name has been read. -/
structure ReadState.Idle (offset : Nat) (st : ReadState) : Prop where
  next : st.vfatNext = 0xff
  noLong : st.longEntry = false
  offset_eq : st.offset = offset

/-- The pieces of a long name behind the first `n` have been read. -/
structure ReadState.Reading (csum : UInt8) (text : List UInt16) (n offset : Nat) (st : ReadState) :
    Prop where
  csum_eq : st.vfatCsum = csum
  longName_eq : st.longName = filled text n 261
  noLong : st.longEntry = false
  offset_eq : st.offset = offset

/-- What has been read of a long name in front of the short entry. -/
structure ReadState.Ready (csum : UInt8) (name : Option (List UInt8)) (offset : Nat)
    (st : ReadState) : Prop where
  offset_eq : st.offset = offset
  long : ∀ s, name = some s → st.vfatCsum = csum ∧ st.longEntry = true ∧ st.filename = s ∧
    st.nameLen = s.length
  noLong : name = none → st.longEntry = false

/-- A piece in its turn. -/
theorem readPiece_reading {st : ReadState} {long : List UInt16} {offset : Nat}
    (hst : st.Reading csum (paddedName long) (n + 1) offset) (hn : n < 19)
    (htext : (n + 1) * 13 ≤ (paddedName long).length) (hlong : 0 ∉ long) (hne : long ≠ [])
    (hcount : pieceCount long.length < 20)
    (hchunk : de.longChunk = slice (paddedName long) (n * 13) 13)
    (hoffset : offset + 32 < 2 ^ 32) :
    ∃ st', readPiece cp st (UInt8.ofNat (n + 1)) de = .next st' ∧
      if n = 0 then st'.Ready csum (long.mapM (codeOf cp)) (offset + 32)
      else st'.vfatNext = UInt8.ofNat n ∧ st'.Reading csum (paddedName long) n (offset + 32) := by
  have hroom : (paddedName long).length < 260 := by
    rw [length_paddedName]
    omega
  have hcopy := copyLongChunk_filled (by omega) htext (show (paddedName long).length ≤ 261 by omega)
    hchunk
  have hu32 : u32 (st.offset + 32) = offset + 32 := by
    rw [hst.offset_eq]
    exact u32_of_lt hoffset
  unfold readPiece
  dsimp only
  rw [ordinal_pred (by omega), hst.longName_eq, hcopy]
  dsimp only
  by_cases hzero : n = 0
  · subst hzero
    obtain ⟨k, hk⟩ := Nat.exists_eq_add_of_lt hroom
    have hpad : 261 - (paddedName long).length = k + 2 := by omega
    obtain ⟨tail, htail⟩ := paddedName_append long (List.replicate (k + 1) 0)
    have hbuf : filled (paddedName long) 0 261 = long ++ 0 :: tail := by
      rw [filled_zero, hpad, ← htail]
      rfl
    have hord : UInt8.ofNat 0 = 0 := rfl
    rw [if_pos hord, hbuf, vfatCvtLongname_append hlong]
    cases hname : long.mapM (codeOf cp) with
    | none =>
      refine ⟨_, rfl, ?_⟩
      rw [if_pos rfl]
      exact ⟨hu32, fun _ h => (nomatch h), fun _ => hst.noLong⟩
    | some name =>
      have hlength := (spells_of_convert hname).length_eq
      have hpos : 0 < name.length := hlength ▸ List.length_pos_iff.mpr hne
      have hlt : name.length < 256 := by
        unfold pieceCount at hcount
        omega
      refine ⟨_, rfl, ?_⟩
      rw [if_pos rfl]
      refine ⟨hu32, fun s hs => ?_, fun h => (nomatch h)⟩
      obtain rfl := Option.some.inj hs
      refine ⟨hst.csum_eq, ?_, rfl, rfl⟩
      change (st.longEntry || (decide (0 < name.length) && decide (name.length < 256))) = true
      rw [decide_eq_true hpos, decide_eq_true hlt]
      exact Bool.or_true _
  · rw [if_neg (mt (ordinal_eq_zero_iff (by omega)).mp hzero)]
    refine ⟨_, rfl, ?_⟩
    rw [if_neg hzero]
    exact ⟨rfl, hst.csum_eq, rfl, hst.noLong, hu32⟩

/-- A piece is told from the end of a directory and from a deleted slot. -/
theorem piece_ne_marks (hn : n < 20)
    (hid : de.id = UInt8.ofNat (n + 1) ||| if n + 1 = total then 0x40 else 0) :
    de 0 ≠ 0 ∧ de 0 ≠ 0xe5 := by
  have hall : ∀ n < 20, UInt8.ofNat (n + 1) ||| 0 ≠ 0xe5 := by decide +kernel
  change de.id ≠ 0 ∧ de.id ≠ 0xe5
  rw [hid]
  refine ⟨ordinal_ne_zero hn, ?_⟩
  split_ifs
  · exact ordinal_init_ne (Nat.succ_le_of_lt hn)
  · exact hall n hn

/-- The rest of the pieces, once the last piece is read. -/
theorem readFrom_reading {long : List UInt16} {total : Nat}
    (hpieces : Pieces csum (paddedName long) total n slots) (hn : 0 < n) (hlt : n < total)
    (hcount : pieceCount long.length = total) (htotal : total < 20) (hlong : 0 ∉ long)
    (hne : long ≠ []) {offset : Nat} (hoffset : offset + 32 * n < 2 ^ 32) {st : ReadState}
    (hnext : st.vfatNext = UInt8.ofNat n) (hst : st.Reading csum (paddedName long) n offset) :
    ∃ st' : ReadState, st'.Ready csum (long.mapM (codeOf cp)) (offset + 32 * n) ∧
      readFrom cp st (slots ++ rest) = readFrom cp st' rest := by
  have hlength := length_paddedName long
  induction hpieces generalizing st offset with
  | nil => exact absurd hn (lt_irrefl 0)
  | @cons n de slots hisLong hid hcsum hchunk hpieces ih =>
    obtain ⟨hor, hflag⟩ := @ordinal_plain (n + 1) (by omega)
    have hmarks := piece_ne_marks (by omega) hid
    rw [if_neg hlt.ne, hor] at hid
    obtain ⟨st', hstep, hafter⟩ := @readPiece_reading cp csum n de st long offset hst (by omega)
      (by omega) hlong hne (hcount ▸ htotal) hchunk (by omega)
    have hround : readStep cp st de = .next st' := by
      rw [readStep, if_neg hmarks.1, if_neg hmarks.2, if_pos hisLong, hid, hflag,
        if_neg (not_not.mpr rfl), hcsum, hst.csum_eq, hnext,
        if_neg (not_or.mpr ⟨not_not.mpr rfl, not_not.mpr rfl⟩)]
      exact hstep
    rw [List.cons_append, readFrom_next hround]
    by_cases hzero : n = 0
    · subst hzero
      cases hpieces
      exact ⟨st', (if_pos rfl).mp hafter, rfl⟩
    · rw [if_neg hzero] at hafter
      obtain ⟨st'', hready, hscan⟩ := @ih (Nat.pos_of_ne_zero hzero) (by omega)
        (offset + 32) (by omega) st' hafter.1 hafter.2
      refine ⟨st'', ?_, hscan⟩
      rw [Nat.mul_succ, Nat.add_comm (32 * n), ← Nat.add_assoc]
      exact hready

/-- The pieces of a long name of fewer than 20 pieces. -/
theorem readFrom_pieces {long : List UInt16} {total : Nat}
    (hpieces : Pieces csum (paddedName long) total total slots)
    (hcount : pieceCount long.length = total) (htotal : total < 20) (hlong : 0 ∉ long)
    (hne : long ≠ []) {offset : Nat} (hoffset : offset + 32 * total < 2 ^ 32) {st : ReadState}
    (hst : st.Idle offset) :
    ∃ st' : ReadState, st'.Ready csum (long.mapM (codeOf cp)) (offset + 32 * total) ∧
      readFrom cp st (slots ++ rest) = readFrom cp st' rest := by
  have hlength := length_paddedName long
  have hpos := pieceCount_pos hne
  cases hpieces with
  | nil => exact absurd (hcount ▸ hpos) (lt_irrefl 0)
  | @cons n de slots hisLong hid hcsum hchunk hpieces =>
    obtain ⟨hflag, hord⟩ := ordinal_of_count (Nat.le_of_lt htotal)
    have hmarks := piece_ne_marks (by omega) hid
    rw [if_pos rfl] at hid
    have hsmall : ¬UInt8.ofNat (n + 1) ≥ 20 := by
      have hall : ∀ n < 19, ¬UInt8.ofNat (n + 1) ≥ 20 := by decide +kernel
      exact hall n (by omega)
    have hfirst : ReadState.Reading csum (paddedName long) (n + 1) offset
        { st with vfatCsum := de.checksum, longName := List.replicate 261 0 } :=
      ⟨hcsum, (filled_all (by rw [hlength, hcount]) (by omega)).symm, hst.noLong, hst.offset_eq⟩
    obtain ⟨st', hstep, hafter⟩ := @readPiece_reading cp csum n de _ long offset hfirst (by omega)
      (by omega) hlong hne (hcount ▸ htotal) hchunk (by omega)
    have hround : readStep cp st de = .next st' := by
      rw [readStep, if_neg hmarks.1, if_neg hmarks.2, if_pos hisLong, hid, if_pos hflag, hord]
      dsimp only
      rw [if_neg hsmall]
      exact hstep
    rw [List.cons_append, readFrom_next hround]
    by_cases hzero : n = 0
    · subst hzero
      cases hpieces
      exact ⟨st', (if_pos rfl).mp hafter, rfl⟩
    · rw [if_neg hzero] at hafter
      obtain ⟨st'', hready, hscan⟩ := @readFrom_reading cp csum n slots rest long (n + 1) hpieces
        (Nat.pos_of_ne_zero hzero) (Nat.lt_succ_self n) hcount htotal hlong hne (offset + 32)
        (by omega) st' hafter.1 hafter.2
      refine ⟨st'', ?_, hscan⟩
      rw [Nat.mul_succ, Nat.add_comm (32 * n), ← Nat.add_assoc]
      exact hready

/-- The pieces of a long name of 20 pieces are not read. -/
theorem readFrom_pieces_long (hpieces : Pieces csum text 20 n slots) (hn : n ≤ 20) {offset : Nat}
    (hoffset : offset + 32 * n < 2 ^ 32) {st : ReadState} (hst : st.Idle offset) :
    ∃ st' : ReadState, st'.Idle (offset + 32 * n) ∧
      readFrom cp st (slots ++ rest) = readFrom cp st' rest := by
  induction hpieces generalizing st offset with
  | nil => exact ⟨st, hst, rfl⟩
  | @cons n de slots hisLong hid hcsum hchunk hpieces ih =>
    have hmarks := piece_ne_marks (by omega) hid
    have hu32 : u32 (st.offset + 32) = offset + 32 := by
      rw [hst.offset_eq]
      exact u32_of_lt (by omega)
    have hround : ∃ st', readStep cp st de = .next st' ∧ st'.Idle (offset + 32) := by
      rw [readStep, if_neg hmarks.1, if_neg hmarks.2, if_pos hisLong]
      dsimp only
      by_cases heq : n + 1 = 20
      · obtain ⟨hflag, hord⟩ := ordinal_of_count hn
        have hlarge : UInt8.ofNat (n + 1) ≥ 20 := by
          rw [heq]
          decide
        rw [if_pos heq] at hid
        rw [hid, if_pos hflag, hord, if_pos hlarge]
        exact ⟨_, rfl, hst.next, rfl, hu32⟩
      · obtain ⟨hor, hflag⟩ := @ordinal_plain (n + 1) (by omega)
        have hother : UInt8.ofNat (n + 1) ≠ 0xff := by
          have hall : ∀ n < 20, UInt8.ofNat n ≠ 0xff := by decide +kernel
          exact hall (n + 1) (by omega)
        rw [if_neg heq, hor] at hid
        rw [hid, hflag, if_neg (not_not.mpr rfl), hst.next, if_pos (Or.inr hother)]
        exact ⟨_, rfl, hst.next, rfl, hu32⟩
    obtain ⟨st', hstep, hst'⟩ := hround
    obtain ⟨st'', hst'', hscan⟩ := @ih (by omega) (offset + 32) (by omega) st' hst'
    rw [List.cons_append, readFrom_next hstep]
    refine ⟨st'', ?_, hscan⟩
    rw [Nat.mul_succ, Nat.add_comm (32 * n), ← Nat.add_assoc]
    exact hst''

/-! ## The items of a directory -/

/-- A gap leaves nothing of a long name behind. -/
theorem readStep_gap (hgap : de.Gap) {offset : Nat} (hoffset : offset + 32 < 2 ^ 32)
    {st : ReadState} (hst : st.Idle offset) :
    ∃ st', readStep cp st de = .next st' ∧ st'.Idle (offset + 32) := by
  have hinvalid : st.invalid.Idle (offset + 32) := by
    refine ⟨hst.next, rfl, ?_⟩
    change u32 (st.offset + 32) = offset + 32
    rw [hst.offset_eq]
    exact u32_of_lt hoffset
  refine ⟨st.invalid, ?_, hinvalid⟩
  rw [readStep]
  rcases hgap with hdeleted | ⟨hne, hlong, hlabel⟩
  · have hzero : ¬de 0 = 0 := by
      rw [hdeleted]
      decide
    rw [if_neg hzero, if_pos hdeleted]
  · rw [if_neg hne, hlong, if_neg Bool.false_ne_true, if_pos hlabel]
    split_ifs <;> rfl

theorem Pieces.length_eq (h : Pieces csum text total n slots) : slots.length = n := by
  induction h with
  | nil => rfl
  | cons _ _ _ _ _ ih => exact congrArg Nat.succ ih

/-- The pieces of an entry. -/
theorem readFrom_long (e : Entry) {offset : Nat} (hoffset : offset + 32 * e.pieces.length < 2 ^ 32)
    {st : ReadState} (hst : st.Idle offset) :
    ∃ st' : ReadState,
      st'.Ready (getChecksum e.short.name) (e.readLong cp) (offset + 32 * e.pieces.length) ∧
      readFrom cp st (e.pieces ++ rest) = readFrom cp st' rest := by
  have hlength := e.holds.length_eq
  have hcount := e.pieceCount_le
  rw [hlength] at hoffset ⊢
  unfold Entry.readLong
  split_ifs with hlong
  · exact readFrom_pieces e.holds rfl hlong.2 e.nul_notMem hlong.1 hoffset hst
  · have hready : ∀ st' : ReadState, st'.Idle (offset + 32 * pieceCount e.long.length) →
        st'.Ready (getChecksum e.short.name) none (offset + 32 * pieceCount e.long.length) :=
      fun st' h => ⟨h.offset_eq, fun _ hs => (nomatch hs), fun _ => h.noLong⟩
    by_cases hnil : e.long = []
    · rw [e.pieces_eq_nil hnil]
      refine ⟨st, hready st ?_, rfl⟩
      rw [hnil]
      exact hst
    · have hmax : pieceCount e.long.length = 20 :=
        Nat.le_antisymm hcount (Nat.le_of_not_lt fun hlt => hlong ⟨hnil, hlt⟩)
      have hholds := e.holds
      rw [hmax] at hholds hoffset hready ⊢
      obtain ⟨st', hst', hscan⟩ := @readFrom_pieces_long cp _ _ 20 e.pieces rest hholds le_rfl
        offset hoffset st hst
      exact ⟨st', hready st' hst', hscan⟩

/-- An entry is read under its name. -/
theorem readFrom_entry (e : Entry) {offset : Nat}
    (hoffset : offset + 32 * e.pieces.length < 2 ^ 32) {st : ReadState} (hst : st.Idle offset) :
    ∃ st' : ReadState, readFrom cp st (e.pieces ++ e.short :: rest) = some (some (e.short, st')) ∧
      st'.offset = offset + 32 * e.pieces.length ∧ st'.filename = e.readName cp ∧
      st'.nameLen = (e.readName cp).length := by
  obtain ⟨st', hready, hscan⟩ := @readFrom_long cp (e.short :: rest) e offset hoffset st hst
  have hround : readStep cp st' e.short =
      if (st'.longEntry && decide (getChecksum e.short.name = st'.vfatCsum)) = true then
        .stop (some (e.short, st'))
      else .stop (some (e.short, { st' with
        filename := shortName cp e.short, nameLen := (shortName cp e.short).length })) := by
    rw [readStep, if_neg e.first_ne.1, if_neg e.first_ne.2, e.isLong_short,
      if_neg Bool.false_ne_true, e.attr_eq, if_neg (not_not.mpr rfl)]
  rw [hscan, Entry.readName]
  cases hlong : e.readLong cp with
  | none =>
    rw [hready.noLong hlong, Bool.false_and, if_neg Bool.false_ne_true] at hround
    exact ⟨_, readFrom_stop hround, hready.offset_eq, rfl, rfl⟩
  | some name =>
    obtain ⟨hcsum, hentry, hname, hlength⟩ := hready.long name hlong
    rw [hentry, hcsum, decide_eq_true rfl, Bool.and_self, if_pos rfl] at hround
    exact ⟨st', readFrom_stop hround, hready.offset_eq, hname, hlength⟩

/-- The slots of some items. -/
def slotCount (items : List Item) : Nat := (items.flatMap Item.slots).length

/-- The slots of items add up. -/
theorem slotCount_append (pre post : List Item) :
    slotCount (pre ++ post) = slotCount pre + slotCount post := by
  rw [slotCount, List.flatMap_append, List.length_append]
  rfl

/-- Slots without an entry are passed. -/
theorem readFrom_gaps {gaps : List Item} (hgaps : ∀ item ∈ gaps, item.entry? = none) {offset : Nat}
    (hoffset : offset + 32 * slotCount gaps < 2 ^ 32) {st : ReadState} (hst : st.Idle offset) :
    ∃ st' : ReadState, st'.Idle (offset + 32 * slotCount gaps) ∧
      readFrom cp st (gaps.flatMap Item.slots ++ rest) = readFrom cp st' rest := by
  induction gaps generalizing st offset with
  | nil => exact ⟨st, hst, rfl⟩
  | cons item gaps ih =>
    rw [List.forall_mem_cons] at hgaps
    cases item with
    | entry e => exact nomatch hgaps.1
    | gap de hgap =>
      have hcount : slotCount (.gap de hgap :: gaps) = slotCount gaps + 1 := rfl
      rw [hcount] at hoffset ⊢
      obtain ⟨st', hstep, hst'⟩ := @readStep_gap cp de hgap offset (by omega) st hst
      obtain ⟨st'', hst'', hscan⟩ := @ih hgaps.2 (offset + 32) (by omega) st' hst'
      refine ⟨st'', ?_, (readFrom_next hstep).trans hscan⟩
      rw [Nat.mul_succ, Nat.add_comm (32 * slotCount gaps), ← Nat.add_assoc]
      exact hst''

/-- What is returned for an entry. -/
def Entry.dirent (cp : Codepage) (e : Entry) (offset : Nat) : Dirent where
  dIno := e.short.startCluster
  dOff := offset
  dReclen := (12 + ((e.readName cp).length + 1)) % 2 ^ 16
  isDirectory := e.short.attr &&& attrDirectory ≠ 0
  dName := cStr (e.readName cp)

/-- A call in front of some gaps and an entry returns the entry. -/
theorem vfatReaddir_entry {gaps : List Item} (hgaps : ∀ item ∈ gaps, item.entry? = none) (e : Entry)
    {offset : Nat} (hoffset : offset + 32 * (slotCount gaps + e.pieces.length + 1) < 2 ^ 32) :
    vfatReaddir cp offset (gaps.flatMap Item.slots ++ (e.pieces ++ e.short :: rest)) =
      some (some (e.dirent cp (offset + 32 * (slotCount gaps + e.pieces.length)),
        offset + 32 * (slotCount gaps + e.pieces.length + 1))) := by
  obtain ⟨st, hst, hscan⟩ := @readFrom_gaps cp (e.pieces ++ e.short :: rest) gaps hgaps offset
    (by omega) (readInit offset) ⟨rfl, rfl, rfl⟩
  obtain ⟨st', hentry, hoff, hname, hlength⟩ := @readFrom_entry cp rest e _ (by omega) st hst
  have hslot := hscan.trans hentry
  rw [readFrom] at hslot
  rw [vfatReaddir, vfatReadSlot, hslot, Option.map_some, Option.map_some]
  have hend : u32 (st'.offset + 32) = offset + 32 * (slotCount gaps + e.pieces.length + 1) := by
    rw [hoff, u32_of_lt (by omega)]
    omega
  have hcount : (st'.nameLen + 1).toNat = (e.readName cp).length + 1 := by
    rw [hlength]
    omega
  have hdirent : gotDirent e.short st' =
      e.dirent cp (offset + 32 * (slotCount gaps + e.pieces.length)) := by
    have htake : (cStr (e.readName cp)).take ((e.readName cp).length + 1) =
        cStr (e.readName cp) :=
      List.take_of_length_le (by rw [cStr, List.length_append]; rfl)
    rw [gotDirent, Entry.dirent, hcount, hname, htake, hoff, Nat.mul_add, Nat.add_assoc]
  rw [hend, hdirent]

/-- A call in front of gaps and the end of the directory returns nothing. -/
theorem vfatReaddir_end {gaps : List Item} (hgaps : ∀ item ∈ gaps, item.entry? = none)
    {tail : List Slot} (hend : ∀ de ∈ tail.head?, de 0 = 0) {offset : Nat}
    (hoffset : offset + 32 * slotCount gaps < 2 ^ 32) :
    vfatReaddir cp offset (gaps.flatMap Item.slots ++ tail) = some none := by
  obtain ⟨st, hst, hscan⟩ := @readFrom_gaps cp tail gaps hgaps offset hoffset (readInit offset)
    ⟨rfl, rfl, rfl⟩
  have htail : readFrom cp st tail = some none := by
    cases tail with
    | nil => rfl
    | cons de tail => exact readFrom_stop (if_pos (hend de rfl))
  have hslot := hscan.trans htail
  rw [readFrom] at hslot
  rw [vfatReaddir, vfatReadSlot, hslot]
  rfl

/-! ## The calls for a directory -/

/-- The offsets at which `vfat_readdir` is called, from the start of a directory. -/
inductive DirOffset (cp : Codepage) (slots : List Slot) : Nat → Prop where
  | start : DirOffset cp slots 0
  | next {offset offset' : Nat} {d : Dirent} : DirOffset cp slots offset →
      vfatReaddir cp offset (slots.drop (offset / 32)) = some (some (d, offset')) →
      DirOffset cp slots offset'

/-- One of the calls returns an entry. -/
def Lists (cp : Codepage) (slots : List Slot) (d : Dirent) : Prop :=
  ∃ offset offset', DirOffset cp slots offset ∧
    vfatReaddir cp offset (slots.drop (offset / 32)) = some (some (d, offset'))

variable {dir : Directory}

/-- The entry of a directory behind some items. -/
def Directory.EntryAt (dir : Directory) (pre : List Item) (e : Entry) : Prop :=
  ∃ post, dir.items = pre ++ .entry e :: post

/-- The offset of an entry behind some items. -/
def entryOffset (pre : List Item) (e : Entry) : Nat := 32 * (slotCount pre + e.pieces.length)

/-- Behind the slots of some items the others start. -/
theorem Directory.drop_slots {pre post : List Item} (h : dir.items = pre ++ post) :
    dir.slots.drop (32 * slotCount pre / 32) = post.flatMap Item.slots ++ dir.tail := by
  rw [Nat.mul_div_cancel_left _ (by decide), Directory.slots, h, List.flatMap_append,
    List.append_assoc]
  exact List.drop_left' rfl

/-- An entry takes a slot for each piece and one for itself. -/
theorem slotCount_entry (pre : List Item) (e : Entry) :
    slotCount (pre ++ [.entry e]) = slotCount pre + e.pieces.length + 1 := by
  rw [slotCount_append, Nat.add_assoc]
  refine congrArg (slotCount pre + ·) ?_
  rw [slotCount, List.flatMap_singleton, Item.slots, List.length_append]
  rfl

/-- A call behind some items returns the next entry. -/
theorem Directory.readdir_entry {pre gaps post : List Item} {e : Entry}
    (h : dir.items = pre ++ (gaps ++ .entry e :: post))
    (hgaps : ∀ item ∈ gaps, item.entry? = none) :
    vfatReaddir cp (32 * slotCount pre) (dir.slots.drop (32 * slotCount pre / 32)) =
      some (some (e.dirent cp (entryOffset (pre ++ gaps) e),
        32 * slotCount (pre ++ gaps ++ [.entry e]))) := by
  have hle : slotCount dir.items ≤ 2 ^ 16 := dir.length_le
  have hcount : slotCount (.entry e :: post) = e.pieces.length + 1 + slotCount post := by
    rw [← List.singleton_append, slotCount_append, ← List.nil_append [Item.entry e],
      slotCount_entry]
    exact congrArg (· + _) (congrArg (· + 1) (Nat.zero_add _))
  rw [h, slotCount_append, slotCount_append, hcount] at hle
  have hslots : (gaps ++ .entry e :: post).flatMap Item.slots ++ dir.tail =
      gaps.flatMap Item.slots ++
        (e.pieces ++ e.short :: (post.flatMap Item.slots ++ dir.tail)) := by
    rw [List.flatMap_append, List.flatMap_cons, Item.slots, List.append_assoc, List.append_assoc,
      List.append_assoc]
    rfl
  have hoffset : 32 * slotCount pre + 32 * (slotCount gaps + e.pieces.length) =
      32 * (slotCount pre + slotCount gaps + e.pieces.length) := by
    omega
  have hnext : 32 * slotCount pre + 32 * (slotCount gaps + e.pieces.length + 1) =
      32 * (slotCount pre + slotCount gaps + e.pieces.length + 1) := by
    omega
  rw [Directory.drop_slots h, hslots, vfatReaddir_entry hgaps e (by omega), slotCount_entry,
    entryOffset, slotCount_append, hoffset, hnext]

/-- A call behind the last entry returns nothing. -/
theorem Directory.readdir_end {pre gaps : List Item} (h : dir.items = pre ++ gaps)
    (hgaps : ∀ item ∈ gaps, item.entry? = none) :
    vfatReaddir cp (32 * slotCount pre) (dir.slots.drop (32 * slotCount pre / 32)) =
      some none := by
  have hle : slotCount dir.items ≤ 2 ^ 16 := dir.length_le
  rw [h, slotCount_append] at hle
  rw [Directory.drop_slots h]
  exact vfatReaddir_end hgaps dir.ends (by omega)

/-- Some items start with gaps, up to the next entry. -/
theorem exists_next_entry (items : List Item) : (∀ item ∈ items, item.entry? = none) ∨
    ∃ gaps e post, items = gaps ++ .entry e :: post ∧ ∀ item ∈ gaps, item.entry? = none := by
  induction items with
  | nil => exact Or.inl (List.forall_mem_nil _)
  | cons item items ih =>
    cases item with
    | entry e => exact Or.inr ⟨[], e, items, rfl, List.forall_mem_nil _⟩
    | gap de hgap =>
      rcases ih with hnone | ⟨gaps, e, post, rfl, hgaps⟩
      · exact Or.inl (List.forall_mem_cons.mpr ⟨rfl, hnone⟩)
      · exact Or.inr ⟨.gap de hgap :: gaps, e, post, rfl, List.forall_mem_cons.mpr ⟨rfl, hgaps⟩⟩

/-- Some items end with gaps, behind the last entry. -/
theorem exists_last_entry (items : List Item) : ∃ pre gaps, items = pre ++ gaps ∧
    (∀ item ∈ gaps, item.entry? = none) ∧ ∀ item ∈ pre.getLast?, item.entry? ≠ none := by
  induction items using List.reverseRecOn with
  | nil => exact ⟨[], [], rfl, List.forall_mem_nil _, nofun⟩
  | append_singleton items item ih =>
    obtain ⟨pre, gaps, rfl, hgaps, hpre⟩ := ih
    cases item with
    | entry e =>
      refine ⟨pre ++ gaps ++ [.entry e], [], (List.append_nil _).symm, List.forall_mem_nil _,
        fun item hitem => ?_⟩
      rw [List.getLast?_concat] at hitem
      obtain rfl := Option.some.inj hitem
      exact Option.some_ne_none e
    | gap de hgap =>
      refine ⟨pre, gaps ++ [.gap de hgap], List.append_assoc .., fun item hitem => ?_, hpre⟩
      rcases List.mem_append.mp hitem with hmem | hmem
      · exact hgaps item hmem
      · rw [List.mem_singleton.mp hmem]
        rfl

/-- The calls come to all places behind an entry. -/
theorem Directory.dirOffset (pre : List Item) {post : List Item} (h : dir.items = pre ++ post)
    (hlast : ∀ item ∈ pre.getLast?, item.entry? ≠ none) :
    DirOffset cp dir.slots (32 * slotCount pre) := by
  induction hn : pre.length using Nat.strong_induction_on generalizing pre post with
  | _ n ih =>
    rcases List.eq_nil_or_concat pre with rfl | ⟨items, item, rfl⟩
    · exact .start
    rw [List.concat_eq_append] at *
    cases item with
    | gap de hgap => exact absurd rfl (hlast (.gap de hgap) List.getLast?_concat)
    | entry e =>
      obtain ⟨pre, gaps, rfl, hgaps, hpre⟩ := exists_last_entry items
      have hitems : dir.items = pre ++ (gaps ++ .entry e :: post) := by
        rw [h, List.append_assoc, List.append_assoc]
        rfl
      refine .next (ih pre.length ?_ pre hitems hpre rfl) (dir.readdir_entry hitems hgaps)
      rw [← hn, List.length_append, List.length_append]
      exact Nat.lt_succ_of_le (Nat.le_add_right _ _)

/-- The calls come to places in front of an item only. -/
theorem DirOffset.items {offset : Nat} (h : DirOffset cp dir.slots offset) :
    ∃ pre post, dir.items = pre ++ post ∧ offset = 32 * slotCount pre := by
  induction h with
  | start => exact ⟨[], dir.items, rfl, rfl⟩
  | next _ hcall ih =>
    obtain ⟨pre, post, hitems, rfl⟩ := ih
    rcases exists_next_entry post with hnone | ⟨gaps, e, post, rfl, hgaps⟩
    · rw [dir.readdir_end hitems hnone] at hcall
      exact nomatch hcall
    · rw [dir.readdir_entry hitems hgaps] at hcall
      obtain ⟨-, rfl⟩ := Prod.mk.inj (Option.some.inj (Option.some.inj hcall))
      refine ⟨pre ++ gaps ++ [.entry e], post, ?_, rfl⟩
      rw [hitems, List.append_assoc, List.append_assoc]
      rfl

/-- The calls return each entry, and nothing else. -/
theorem Directory.lists_iff {d : Dirent} : Lists cp dir.slots d ↔
    ∃ pre e, dir.EntryAt pre e ∧ d = e.dirent cp (entryOffset pre e) := by
  constructor
  · rintro ⟨offset, offset', hoffset, hcall⟩
    obtain ⟨pre, post, hitems, rfl⟩ := hoffset.items
    rcases exists_next_entry post with hnone | ⟨gaps, e, post, rfl, hgaps⟩
    · rw [dir.readdir_end hitems hnone] at hcall
      exact nomatch hcall
    · rw [dir.readdir_entry hitems hgaps] at hcall
      obtain ⟨rfl, -⟩ := Prod.mk.inj (Option.some.inj (Option.some.inj hcall))
      exact ⟨pre ++ gaps, e, ⟨post, hitems.trans (List.append_assoc ..).symm⟩, rfl⟩
  · rintro ⟨items, e, ⟨post, hitems⟩, rfl⟩
    obtain ⟨pre, gaps, rfl, hgaps, hpre⟩ := exists_last_entry items
    rw [List.append_assoc] at hitems
    exact ⟨_, _, dir.dirOffset pre hitems hpre, dir.readdir_entry hitems hgaps⟩

end Liigboot.Fs.Fat
