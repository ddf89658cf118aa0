import Liigboot.Fs.Fat.Entries

/-!
# Looking up a name in a well-formed directory

`vfat_find_entry` returns the first entry that the name matches. In front of an item it waits for
the first piece of a name that is as long as the one it looks for; the pieces of any other name,
deleted slots and volume labels leave it there.
-/

namespace Liigboot.Fs.Fat

variable {cp : Codepage} {dname mangledName : List UInt8} {csum : UInt8} {text : List UInt16}
  {n total count room : Nat} {de : Slot} {slots rest : List Slot}

/-! ## The buffer -/

/-- The buffer of a long name when the pieces behind the first `n` are copied. -/
def filled (text : List UInt16) (n room : Nat) : List UInt16 :=
  List.replicate (n * 13) 0 ++ text.drop (n * 13) ++ List.replicate (room - text.length) 0

/-- Nothing of the name is in the buffer before its first piece. -/
theorem filled_all (htext : text.length = total * 13) (hroom : total * 13 ≤ room) :
    filled text total room = List.replicate room 0 := by
  rw [filled, ← htext, List.drop_length, List.append_nil, ← List.replicate_add,
    Nat.add_sub_cancel' (htext ▸ hroom)]

theorem filled_zero (text : List UInt16) (room : Nat) :
    filled text 0 room = text ++ List.replicate (room - text.length) 0 := by
  rw [filled, Nat.zero_mul, List.drop_zero]
  rfl

theorem length_filled (htext : n * 13 ≤ text.length) (hroom : text.length ≤ room) :
    (filled text n room).length = room := by
  rw [filled, List.length_append, List.length_append, List.length_replicate, List.length_drop,
    List.length_replicate]
  omega

/-- A piece fills its place. -/
theorem copyLongChunk_filled (hn : n < 20) (htext : (n + 1) * 13 ≤ text.length)
    (hroom : text.length ≤ room) (hchunk : de.longChunk = slice text (n * 13) 13) :
    copyLongChunk (filled text (n + 1) room) (UInt8.ofNat n) de = some (filled text n room) := by
  have hid : (UInt8.ofNat n).toNat = n := UInt8.toNat_ofNat_of_lt' (show n < 256 by omega)
  have hlength := length_filled htext hroom
  have hzeros : List.replicate ((n + 1) * 13) (0 : UInt16) =
      List.replicate (n * 13) 0 ++ List.replicate 13 0 := by
    rw [← List.replicate_add, Nat.succ_mul]
  have htake : (filled text (n + 1) room).take (n * 13) = List.replicate (n * 13) 0 := by
    rw [filled, hzeros, List.append_assoc, List.append_assoc]
    exact List.take_left' List.length_replicate
  have hdrop : (filled text (n + 1) room).drop (n * 13 + 13) =
      text.drop ((n + 1) * 13) ++ List.replicate (room - text.length) 0 := by
    rw [filled, List.append_assoc, ← Nat.succ_mul]
    exact List.drop_left' List.length_replicate
  have hsplit : slice text (n * 13) 13 ++ text.drop ((n + 1) * 13) = text.drop (n * 13) := by
    rw [slice, Nat.succ_mul, ← List.drop_drop]
    exact List.take_append_drop _ _
  rw [copyLongChunk, hid, if_pos (by omega), blit, length_longChunk, htake, hdrop, hchunk,
    List.append_assoc, ← List.append_assoc (slice _ _ _), hsplit, ← List.append_assoc]
  rfl

/-! ## Ordinals -/

/-- The ordinals of the pieces as bytes. None of them meets the flag of the last piece, or with it
the mark of a deleted slot. -/
theorem ordinal_table : ∀ n < 21, (0 < n → UInt8.ofNat n - 1 = UInt8.ofNat (n - 1)) ∧
    (UInt8.ofNat n = 0 ↔ n = 0) ∧ UInt8.ofNat n &&& 0x40 = 0 ∧ UInt8.ofNat n ||| 0x40 ≠ 0 ∧
    UInt8.ofNat n ||| 0x40 ≠ 0xe5 ∧ (UInt8.ofNat n ||| 0x40) &&& 0x40 = 0x40 ∧
    (UInt8.ofNat n ||| 0x40) - 0x40 = UInt8.ofNat n := by
  decide +kernel

/-- The next ordinal is one less. -/
theorem ordinal_pred (hn : n < 20) : UInt8.ofNat (n + 1) - 1 = UInt8.ofNat n :=
  (ordinal_table (n + 1) (by omega)).1 (Nat.succ_pos n)

/-- The ordinal zero is that of the short entry. -/
theorem ordinal_eq_zero_iff (hn : n < 20) : UInt8.ofNat n = 0 ↔ n = 0 :=
  (ordinal_table n (by omega)).2.1

/-- A piece behind the last one has no flag. -/
theorem ordinal_plain (hn : n < 20) : UInt8.ofNat n ||| 0 = UInt8.ofNat n ∧
    UInt8.ofNat n &&& 0x40 = 0 :=
  ⟨UInt8.or_zero, (ordinal_table n (by omega)).2.2.1⟩

theorem ordinal_ne_zero (hn : n < 20) :
    UInt8.ofNat (n + 1) ||| (if n + 1 = total then 0x40 else 0) ≠ 0 := by
  obtain ⟨-, hzero, -, hflag, -⟩ := ordinal_table (n + 1) (by omega)
  split_ifs
  · exact hflag
  · rw [UInt8.or_zero]
    exact fun h => absurd (hzero.mp h) (Nat.succ_ne_zero n)

/-- A search does not begin with a deleted slot. -/
theorem ordinal_init_ne (hcount : count ≤ 20) : UInt8.ofNat count ||| 0x40 ≠ 0xe5 :=
  (ordinal_table count (by omega)).2.2.2.2.1

/-- The last piece of a long name is told from all others by its ordinal. -/
theorem ordinal_ne (hn : n < 20) (hcount : count ≤ 20) (hne : total ≠ count) :
    UInt8.ofNat (n + 1) ||| (if n + 1 = total then 0x40 else 0) ≠ UInt8.ofNat count ||| 0x40 := by
  obtain ⟨-, -, hplain, -, -, -, hsub⟩ := ordinal_table (n + 1) (by omega)
  obtain ⟨-, -, -, -, -, hflag, hsub'⟩ := ordinal_table count (by omega)
  split_ifs with heq
  · intro hsame
    rw [hsame, hsub'] at hsub
    have hnat := congrArg UInt8.toNat hsub
    rw [UInt8.toNat_ofNat_of_lt' (show n + 1 < 256 by omega),
      UInt8.toNat_ofNat_of_lt' (show count < 256 by omega)] at hnat
    omega
  · intro hsame
    rw [UInt8.or_zero] at hsame
    rw [← hsame, hplain] at hflag
    exact absurd hflag (by decide)

/-! ## The pieces of a long name -/

/-- The search waits for the first piece of a long name. -/
structure FindState.Idle (count : Nat) (st : FindState) : Prop where
  next : st.vfatNext = UInt8.ofNat count ||| 0x40
  noMatch : st.longMatch = false

/-- A mismatch leaves the search idle. -/
theorem FindState.idle_notMatch (st : FindState) (count : Nat) :
    (st.notMatch (UInt8.ofNat count ||| 0x40)).Idle count :=
  ⟨rfl, rfl⟩

/-- The search has read the pieces of a long name behind the first `n`. -/
structure FindState.Reading (csum : UInt8) (text : List UInt16) (n : Nat) (st : FindState) :
    Prop where
  csum_eq : st.vfatCsum = csum
  longName_eq : st.longName = filled text n 260
  longLen_eq : st.longLen = text.length
  noMatch : st.longMatch = false

/-- The search has read the first piece, which comes last. -/
def FindState.Done (cp : Codepage) (dname : List UInt8) (count : Nat) (csum : UInt8)
    (text : List UInt16) (st : FindState) : Prop :=
  if vfatMatchLongname cp (cStr dname) text = some true then
    st.longMatch = true ∧ st.vfatCsum = csum
  else st.Idle count

/-- A piece in its turn. -/
theorem findPiece_reading {st : FindState} (hst : st.Reading csum text (n + 1)) (hn : n < 20)
    (htext : (n + 1) * 13 ≤ text.length) (hroom : text.length ≤ 260)
    (hchunk : de.longChunk = slice text (n * 13) 13) :
    ∃ st', findPiece cp dname (UInt8.ofNat count ||| 0x40) st (UInt8.ofNat (n + 1)) de =
        .next st' ∧
      if n = 0 then st'.Done cp dname count csum text
      else st'.vfatNext = UInt8.ofNat n ∧ st'.Reading csum text n := by
  have hcopy := copyLongChunk_filled hn htext hroom hchunk
  have hlength : (filled text n 260).length = 260 := length_filled (by omega) hroom
  unfold findPiece
  dsimp only
  rw [ordinal_pred hn, hst.longName_eq, hcopy, hst.longLen_eq]
  dsimp only
  by_cases hzero : n = 0
  · subst hzero
    have htake : (filled text 0 260).take text.length = text := by
      rw [filled_zero]
      exact List.take_left' rfl
    obtain ⟨found, hfound⟩ :=
      Option.ne_none_iff_exists'.mp (@vfatMatchLongname_ne_none cp dname text)
    have hord : UInt8.ofNat 0 = 0 := rfl
    rw [if_pos hord, if_neg (by omega), htake, hfound]
    cases found with
    | false =>
      refine ⟨_, rfl, ?_⟩
      rw [if_pos rfl, FindState.Done, hfound, if_neg (by decide)]
      exact FindState.idle_notMatch _ count
    | true =>
      refine ⟨_, rfl, ?_⟩
      rw [if_pos rfl, FindState.Done, if_pos hfound]
      exact ⟨rfl, hst.csum_eq⟩
  · rw [if_neg (mt (ordinal_eq_zero_iff hn).mp hzero)]
    refine ⟨_, rfl, ?_⟩
    rw [if_neg hzero]
    exact ⟨rfl, hst.csum_eq, rfl, rfl, hst.noMatch⟩

/-- The search for a name of `count` pieces, from a state on. -/
def findFrom (cp : Codepage) (dname mangledName : List UInt8) (count : Nat) (st : FindState)
    (slots : List Slot) : Option (Option Slot) :=
  scan (findStep cp dname mangledName (UInt8.ofNat count ||| 0x40)) (fun _ => none) st slots

/-- A step that goes on goes to the next entry. -/
theorem findFrom_next {st st' : FindState}
    (h : findStep cp dname mangledName (UInt8.ofNat count ||| 0x40) st de = .next st') :
    findFrom cp dname mangledName count st (de :: rest) =
      findFrom cp dname mangledName count st' rest :=
  scan_next h

/-- A step that stops ends the search. -/
theorem findFrom_stop {st : FindState} {result : Option Slot}
    (h : findStep cp dname mangledName (UInt8.ofNat count ||| 0x40) st de = .stop result) :
    findFrom cp dname mangledName count st (de :: rest) = some result :=
  scan_stop h

/-- The rest of the pieces, once the last piece is read. -/
theorem scan_reading (hpieces : Pieces csum text total n slots) (hn : 0 < n) (hlt : n < total)
    (htotal : total ≤ 20) (htext : text.length = total * 13) {st : FindState}
    (hnext : st.vfatNext = UInt8.ofNat n) (hst : st.Reading csum text n) :
    ∃ st' : FindState, st'.Done cp dname count csum text ∧
      findFrom cp dname mangledName count st (slots ++ rest) =
        findFrom cp dname mangledName count st' rest := by
  induction hpieces generalizing st with
  | nil => exact absurd hn (lt_irrefl 0)
  | @cons n de slots hlong hid hcsum hchunk hpieces ih =>
    obtain ⟨hor, hflag⟩ := @ordinal_plain (n + 1) (by omega)
    rw [if_neg hlt.ne, hor] at hid
    have hne : de 0 ≠ 0 := by
      change de.id ≠ 0
      rw [hid, ne_eq, ordinal_eq_zero_iff (by omega)]
      exact Nat.succ_ne_zero n
    obtain ⟨st', hstep, hafter⟩ := @findPiece_reading cp dname csum text n count de st hst
      (by omega) (by omega) (by omega) hchunk
    have hround : findStep cp dname mangledName (UInt8.ofNat count ||| 0x40) st de =
        .next st' := by
      rw [findStep, if_neg hne, if_pos hlong, hid, hnext, if_neg (not_not.mpr rfl), hflag,
        if_neg (not_not.mpr rfl), hcsum, hst.csum_eq, if_neg (not_not.mpr rfl)]
      exact hstep
    rw [List.cons_append, findFrom_next hround]
    by_cases hzero : n = 0
    · subst hzero
      cases hpieces
      exact ⟨st', (if_pos rfl).mp hafter, rfl⟩
    · rw [if_neg hzero] at hafter
      exact ih (Nat.pos_of_ne_zero hzero) (by omega) hafter.1 hafter.2

/-- The pieces of a long name of the length that is looked for. -/
theorem scan_pieces (hpieces : Pieces csum text count count slots) (hcount : 0 < count)
    (hle : count ≤ 20) (htext : text.length = count * 13) {st : FindState} (hst : st.Idle count) :
    ∃ st' : FindState, st'.Done cp dname count csum text ∧
      findFrom cp dname mangledName count st (slots ++ rest) =
        findFrom cp dname mangledName count st' rest := by
  cases hpieces with
  | nil => exact absurd hcount (lt_irrefl 0)
  | @cons n de slots hlong hid hcsum hchunk hpieces =>
    obtain ⟨hflag, hord⟩ := ordinal_of_count hle
    rw [if_pos rfl] at hid
    have hne : de 0 ≠ 0 := by
      change de.id ≠ 0
      rw [hid]
      intro hzero
      rw [hzero] at hflag
      exact hflag rfl
    have hfirst : (st.first (UInt8.ofNat (n + 1)) de).Reading csum text (n + 1) := by
      have hlen : (UInt8.ofNat (n + 1)).toNat = n + 1 :=
        UInt8.toNat_ofNat_of_lt' (show n + 1 < 256 by omega)
      refine ⟨hcsum, (filled_all htext (by omega)).symm, ?_, hst.noMatch⟩
      rw [htext, FindState.first, hlen]
    obtain ⟨st', hstep, hafter⟩ := @findPiece_reading cp dname csum text n (n + 1) de _ hfirst
      (by omega) htext.ge (by omega) hchunk
    have hround : findStep cp dname mangledName (UInt8.ofNat (n + 1) ||| 0x40) st de =
        .next st' := by
      rw [findStep, if_neg hne, if_pos hlong, hid, hst.next, if_neg (not_not.mpr rfl), if_pos hflag,
        hord]
      exact hstep
    rw [List.cons_append, findFrom_next hround]
    by_cases hzero : n = 0
    · subst hzero
      cases hpieces
      exact ⟨st', (if_pos rfl).mp hafter, rfl⟩
    · rw [if_neg hzero] at hafter
      exact scan_reading hpieces (Nat.pos_of_ne_zero hzero) (Nat.lt_succ_self n) hle htext hafter.1
        hafter.2

/-- The pieces of a long name of another length. -/
theorem scan_pieces_other (hpieces : Pieces csum text total n slots) (hn : n ≤ 20)
    (hcount : count ≤ 20) (hne : total ≠ count) {st : FindState} (hst : st.Idle count) :
    ∃ st' : FindState, st'.Idle count ∧
      findFrom cp dname mangledName count st (slots ++ rest) =
        findFrom cp dname mangledName count st' rest := by
  induction hpieces generalizing st with
  | nil => exact ⟨st, hst, rfl⟩
  | @cons n de slots hlong hid hcsum hchunk hpieces ih =>
    have hother := ordinal_ne (Nat.lt_of_succ_le hn) hcount hne
    rw [← hid] at hother
    have hzero : de 0 ≠ 0 := by
      change de.id ≠ 0
      rw [hid]
      exact ordinal_ne_zero (Nat.lt_of_succ_le hn)
    have hround : findStep cp dname mangledName (UInt8.ofNat count ||| 0x40) st de =
        .next (st.notMatch (UInt8.ofNat count ||| 0x40)) := by
      rw [findStep, if_neg hzero, if_pos hlong, hst.next, if_pos hother]
    rw [List.cons_append, findFrom_next hround]
    exact ih (Nat.le_of_succ_le hn) (FindState.idle_notMatch st count)

/-! ## The items of a directory -/

/-- The name for the short entries does not start like a deleted slot. -/
theorem mangleLoop_head (src : List UInt8) {buf mangled : List UInt8}
    (hbuf : buf.head? ≠ some 0xe5) (h : mangleLoop cp src buf = some mangled) :
    mangled.head? ≠ some 0xe5 := by
  induction src generalizing buf with
  | nil =>
    rw [mangleLoop] at h
    split_ifs at h
    exact Option.some.inj h ▸ hbuf
  | cons c src ih =>
    rw [mangleLoop] at h
    split_ifs at h with hfull hend hdot
    · exact Option.some.inj h ▸ hbuf
    · refine ih ?_ h
      cases buf with
      | nil =>
        change some (0x20 : UInt8) ≠ some 0xe5
        decide
      | cons b buf => exact hbuf
    · refine ih ?_ h
      cases buf with
      | nil =>
        rw [List.nil_append, List.head?_cons, ne_eq, Option.some_inj]
        split_ifs with hspecial
        · decide
        · exact fun heq => hspecial ⟨rfl, heq⟩
      | cons b buf => exact hbuf
    · exact Option.some.inj h ▸ hbuf

/-- A mangled name never looks like a deleted entry. -/
theorem mangleDosName_head {mangled : List UInt8}
    (h : mangleDosName cp (cStr dname) = some mangled) : mangled.head? ≠ some 0xe5 := by
  unfold mangleDosName at h
  obtain ⟨buf, hbuf, rfl⟩ := Option.map_eq_some_iff.mp h
  have hhead : buf.head? ≠ some 0xe5 := by
    split at hbuf
    · obtain rfl := Option.some.inj hbuf
      decide
    · obtain rfl := Option.some.inj hbuf
      decide
    · exact mangleLoop_head _ (by decide) hbuf
  cases buf with
  | nil => decide
  | cons b buf => exact hhead

/-- A deleted slot or a volume label. -/
theorem scan_gap (hmangled : mangledName.head? ≠ some 0xe5) (hcount : count ≤ 20)
    (hgap : de.Gap) {st : FindState} (hst : st.Idle count) :
    findStep cp dname mangledName (UInt8.ofNat count ||| 0x40) st de =
      .next (st.notMatch (UInt8.ofNat count ||| 0x40)) := by
  rw [findStep, hst.next, hst.noMatch]
  rcases hgap with hdeleted | ⟨hne, hlong, hlabel⟩
  · have hid : de.id ≠ UInt8.ofNat count ||| 0x40 := by
      change de 0 ≠ _
      rw [hdeleted]
      exact (ordinal_init_ne hcount).symm
    have hname : mangledName ≠ de.name := by
      rintro rfl
      exact hmangled (congrArg some hdeleted)
    have hzero : ¬de 0 = 0 := by
      rw [hdeleted]
      decide
    rw [if_neg hzero, if_pos hid, if_neg Bool.false_ne_true, if_neg hname]
    split_ifs <;> rfl
  · rw [if_neg hne, hlong, if_neg Bool.false_ne_true, if_pos hlabel]

/-- The short entry is not a piece of a long name. -/
theorem Entry.isLong_short (e : Entry) : e.short.isLong = false := by
  refine decide_eq_false fun hattr => ?_
  have hvolume := e.attr_eq
  rw [hattr] at hvolume
  exact absurd hvolume (by decide)

/-- The short entry, when no long name was found for it. -/
theorem findStep_short (e : Entry) {st : FindState} (hst : st.Idle count) :
    findStep cp dname mangledName (UInt8.ofNat count ||| 0x40) st e.short =
      if mangledName = e.short.name then .stop (some e.short)
      else .next (st.notMatch (UInt8.ofNat count ||| 0x40)) := by
  rw [findStep, if_neg e.first_ne.1, e.isLong_short, if_neg Bool.false_ne_true, e.attr_eq,
    if_neg (not_not.mpr rfl), hst.noMatch, if_neg Bool.false_ne_true]

/-- The short entry behind the pieces that hold the name. -/
theorem findStep_found (e : Entry) {st : FindState} (hmatch : st.longMatch = true)
    (hcsum : st.vfatCsum = getChecksum e.short.name) :
    findStep cp dname mangledName (UInt8.ofNat count ||| 0x40) st e.short =
      .stop (some e.short) := by
  rw [findStep, if_neg e.first_ne.1, e.isLong_short, if_neg Bool.false_ne_true, e.attr_eq,
    if_neg (not_not.mpr rfl), hmatch, if_pos rfl, hcsum, if_pos rfl]

/-- An entry whose long name does not match: its short name decides. -/
theorem findFrom_short (e : Entry) (hmangled : mangleDosName cp (cStr dname) = some mangledName)
    (hno : e.matchesLong cp dname = false) {st : FindState} (hst : st.Idle count) :
    (e.matches cp dname = true →
      findFrom cp dname mangledName count st (e.short :: rest) = some (some e.short)) ∧
    (e.matches cp dname = false → ∃ st' : FindState, st'.Idle count ∧
      findFrom cp dname mangledName count st (e.short :: rest) =
        findFrom cp dname mangledName count st' rest) := by
  have hshort := @findStep_short cp dname mangledName count e st hst
  rw [Entry.matches, hno, Bool.false_or, hmangled, decide_eq_true_eq, decide_eq_false_iff_not,
    Option.some_inj]
  constructor
  · intro hname
    rw [if_pos hname] at hshort
    exact findFrom_stop hshort
  · intro hname
    rw [if_neg hname] at hshort
    exact ⟨_, FindState.idle_notMatch st count, findFrom_next hshort⟩

/-- An entry: it is the result if the name matches it. -/
theorem findFrom_entry (e : Entry) (hdname : 0 ∉ dname)
    (hmangled : mangleDosName cp (cStr dname) = some mangledName)
    (hcount : count = pieceCount dname.length) (hle : count ≤ 20) {st : FindState}
    (hst : st.Idle count) :
    (e.matches cp dname = true →
      findFrom cp dname mangledName count st (e.pieces ++ e.short :: rest) =
        some (some e.short)) ∧
    (e.matches cp dname = false → ∃ st' : FindState, st'.Idle count ∧
      findFrom cp dname mangledName count st (e.pieces ++ e.short :: rest) =
        findFrom cp dname mangledName count st' rest) := by
  have hlength := length_paddedName e.long
  have hholds := e.holds
  by_cases hsame : e.long ≠ [] ∧ pieceCount e.long.length = count
  · rw [hsame.2] at hholds hlength
    obtain ⟨st', hdone, hscan⟩ := @scan_pieces cp dname mangledName _ _ count e.pieces
      (e.short :: rest) hholds (hsame.2 ▸ pieceCount_pos hsame.1) hle hlength st hst
    rw [FindState.Done] at hdone
    rw [hscan]
    by_cases hmatch : vfatMatchLongname cp (cStr dname) (paddedName e.long) = some true
    · have hlong : e.matchesLong cp dname = true :=
        (Entry.matchesLong_iff_match hdname).mpr ⟨hsame.1, hmatch⟩
      have hmatches : e.matches cp dname = true := by
        rw [Entry.matches, hlong, Bool.true_or]
      rw [if_pos hmatch] at hdone
      refine ⟨fun _ => findFrom_stop (findStep_found e hdone.1 hdone.2), fun hno => ?_⟩
      rw [hmatches] at hno
      exact nomatch hno
    · rw [if_neg hmatch] at hdone
      refine findFrom_short e hmangled (Bool.eq_false_iff.mpr fun hlong => ?_) hdone
      exact hmatch ((Entry.matchesLong_iff_match hdname).mp hlong).2
  · have hno : e.matchesLong cp dname = false := by
      refine Bool.eq_false_iff.mpr fun hlong => ?_
      have hpieces := Entry.pieceCount_of_matchesLong hlong
      exact hsame ⟨(Entry.matchesLong_iff.mp hlong).1, hpieces.symm.trans hcount.symm⟩
    have hskip : ∃ st' : FindState, st'.Idle count ∧
        findFrom cp dname mangledName count st (e.pieces ++ e.short :: rest) =
          findFrom cp dname mangledName count st' (e.short :: rest) := by
      by_cases hnil : e.long = []
      · rw [e.pieces_eq_nil hnil]
        exact ⟨st, hst, rfl⟩
      · exact scan_pieces_other hholds e.pieceCount_le hle (fun heq => hsame ⟨hnil, heq⟩) hst
    obtain ⟨st', hst', hscan⟩ := hskip
    rw [hscan]
    exact findFrom_short e hmangled hno hst'

/-- The search through the items of a directory. -/
theorem findFrom_items (items : List Item) {tail : List Slot} (hend : ∀ de ∈ tail.head?, de 0 = 0)
    (hdname : 0 ∉ dname) (hmangled : mangleDosName cp (cStr dname) = some mangledName)
    (hcount : count = pieceCount dname.length) (hle : count ≤ 20) {st : FindState}
    (hst : st.Idle count) :
    findFrom cp dname mangledName count st (items.flatMap Item.slots ++ tail) =
      some (((items.filterMap Item.entry?).find? (Entry.matches cp · dname)).map
        Entry.short) := by
  induction items generalizing st with
  | nil =>
    cases tail with
    | nil => rfl
    | cons de tail => exact findFrom_stop (if_pos (hend de rfl))
  | cons item items ih =>
    cases item with
    | gap de hgap =>
      have hnext := @scan_gap cp dname mangledName count de (mangleDosName_head hmangled) hle hgap
        st hst
      exact (findFrom_next hnext).trans (ih (FindState.idle_notMatch st count))
    | entry e =>
      obtain ⟨hyes, hno⟩ := @findFrom_entry cp dname mangledName count
        (items.flatMap Item.slots ++ tail) e hdname hmangled hcount hle st hst
      have hslots : (Item.entry e :: items).flatMap Item.slots ++ tail =
          e.pieces ++ e.short :: (items.flatMap Item.slots ++ tail) := by
        rw [List.flatMap_cons, Item.slots, List.append_assoc, List.append_assoc]
        rfl
      have hentries : (Item.entry e :: items).filterMap Item.entry? =
          e :: items.filterMap Item.entry? := rfl
      rw [hslots, hentries, List.find?_cons]
      cases hmatch : e.matches cp dname with
      | true => exact hyes hmatch
      | false =>
        obtain ⟨st', hst', hscan⟩ := hno hmatch
        exact hscan.trans (ih hst')

/-- The search returns the first entry that the name matches. -/
theorem vfatFindSlot_eq (dir : Directory) (hdname : 0 ∉ dname)
    (hle : pieceCount dname.length ≤ 20) :
    vfatFindSlot cp dname dir.slots =
      some ((dir.entries.find? (Entry.matches cp · dname)).map Entry.short) := by
  obtain ⟨mangledName, hmangled⟩ :=
    Option.ne_none_iff_exists'.mp (@mangleDosName_ne_none cp dname)
  have hcount : ¬(dname.length + 12) / 13 > 20 := Nat.not_lt.mpr hle
  rw [vfatFindSlot]
  dsimp only
  rw [if_neg hcount, hmangled, Option.bind_some]
  exact findFrom_items dir.items dir.ends hdname hmangled rfl hle ⟨rfl, rfl⟩

end Liigboot.Fs.Fat
