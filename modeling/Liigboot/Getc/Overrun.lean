import Liigboot.Getc.Run

/-!
# A word that is too long

`getcommand` stores a word behind `trackbuf` without a limit. A word of eleven kilobytes goes over
the stack of open files, and the record that it is read with is lost: its count of characters that
are pushed back becomes a character of the word.
-/

namespace Liigboot.Getc

/-! ## The file -/

/-- The only character of the file. It is chosen so that the pointer into the buffer stays in the
buffer when it is overwritten. -/
def filler : UInt8 := 0xf5

/-- A file that is a single word. -/
def longWord : List UInt8 := List.replicate 0x3000 filler

/-- The record of the first file. -/
def firstRecord : Nat := 0x3c40

variable {s s' : State (List UInt8)} {left rest di k n : Nat} {al : UInt8} {ebx : UInt32}

/-- The file is open, and nothing is pushed back. -/
structure Reading (s : State (List UInt8)) : Prop where
  current : s.word linked.currentGetC = firstRecord
  count : s.byte (firstRecord + gcUngetCnt) = 0

/-- The buffer of the record is full of the character. -/
def Filled (s : State (List UInt8)) : Prop :=
  ∀ a, 0xf000 ≤ a → a < 0x10000 → s.realMode a = filler

/-- The record while the word is stored in front of it: so much is in the buffer, and so much is
left in the file. -/
structure InFront (s : State (List UInt8)) (left rest : Nat) : Prop extends Reading s where
  left_le : left ≤ 0x1000
  bufbytes : s.word (firstRecord + gcBufbytes) = left
  bufdata : left ≠ 0 → s.word (firstRecord + gcBufdata) + left = 0x10000
  filled : left ≠ 0 → Filled s
  whole : rest % 0x1000 = 0
  file : rest ≠ 0 → s.word (firstRecord + gcFile) ≠ 0
  fs : s.fs = List.replicate rest filler

/-- The record while the word is stored over it: so many characters can still be read. -/
structure Over (s : State (List UInt8)) (n : Nat) : Prop extends Reading s where
  bufbytes : 0x100 + n ≤ s.word (firstRecord + gcBufbytes)
  bufdata_ge : 0xf000 ≤ s.word (firstRecord + gcBufdata)
  bufdata_lt : s.word (firstRecord + gcBufdata) + n < 0xff00
  filled : Filled s

/-! ## Reading -/

/-- A character less in the buffer. -/
def countedDown (s : State (List UInt8)) : State (List UInt8) :=
  s.write (firstRecord + gcBufbytes) (leBytes (s.word (firstRecord + gcBufbytes) + 0xffff) 2)

/-- The state behind a read from the buffer. -/
def advanced (s : State (List UInt8)) : State (List UInt8) :=
  (countedDown s).write (firstRecord + gcBufdata)
    (leBytes (s.word (firstRecord + gcBufdata) + 1) 2)

/-- A store of a word leaves the words apart from it. -/
theorem word_write_field {a c n : Nat} (s : State (List UInt8)) (ha : a < 0xffff) (hc : c < 0xffff)
    (h : c + 1 < a ∨ a + 1 < c) : (s.write a (leBytes n 2)).word c = s.word c := by
  apply word_write_of_ne
  intro i hi
  rw [length_leBytes] at hi
  omega

/-- It leaves the bytes apart from it. -/
theorem byte_write_field {a c n : Nat} (s : State (List UInt8)) (ha : a < 0xffff) (hc : c < 0xffff)
    (h : c < a ∨ a + 1 < c) : (s.write a (leBytes n 2)).byte c = s.byte c := by
  apply byte_write_of_ne
  intro i hi
  rw [length_leBytes] at hi
  omega

/-- A store of a byte leaves the words apart from it. -/
theorem word_write_byte {a c : Nat} {b : UInt8} (s : State (List UInt8)) (ha : a < 0xffff)
    (hc : c < 0xffff) (h : c + 1 < a ∨ a < c) : (s.write a [b]).word c = s.word c := by
  apply word_write_of_ne
  intro i hi
  obtain rfl := Nat.lt_one_iff.mp hi
  omega

/-- With bytes in the buffer the next one is taken. -/
theorem gotData_firstRecord (h : s.word (firstRecord + gcBufbytes) ≠ 0) :
    gotData firstRecord s =
      (some (s.realMode (s.word (firstRecord + gcBufdata))), advanced s) := by
  have hsi : (countedDown s).word (firstRecord + gcBufdata) =
      s.word (firstRecord + gcBufdata) := by
    simp (disch := decide) only [countedDown, word_write_field]
  unfold gotData
  rw [if_neg h, ← countedDown, hsi]
  rfl

/-- So is it by `getc`, with nothing pushed back. -/
theorem getc_buffered (h : Reading s) (hleft : s.word (firstRecord + gcBufbytes) ≠ 0) :
    getc linked (oneFile _) s =
      (some (s.realMode (s.word (firstRecord + gcBufdata))), advanced s) := by
  unfold getc
  dsimp only
  rw [h.current, h.count, if_neg (not_not.mpr rfl), gotData_firstRecord hleft]

/-- The fields in front of the count. -/
theorem Reading.write (h : Reading s) (hk : k ≤ 4) :
    Reading (s.write (firstRecord + k) (leBytes n 2)) := by
  have hrecord : firstRecord = 0x3c40 := rfl
  have hcurrent : linked.currentGetC = 0x9720 := rfl
  have hfield : gcUngetCnt = 6 := rfl
  constructor
  · rw [word_write_field s (by omega) (by omega) (.inr (by omega))]
    exact h.current
  · rw [byte_write_field s (by omega) (by omega) (.inr (by omega))]
    exact h.count

/-- The file is still read. -/
theorem Reading.advanced (h : Reading s) : Reading (advanced s) :=
  (h.write (by decide)).write (by decide)

/-- There is a byte less in the buffer. -/
theorem bufbytes_advanced (s : State (List UInt8)) :
    (advanced s).word (firstRecord + gcBufbytes) =
      (s.word (firstRecord + gcBufbytes) + 0xffff) % 0x10000 := by
  simp (disch := decide) only [advanced, countedDown, word_write_field, word_write_self]

/-- The pointer is a byte further. -/
theorem bufdata_advanced (s : State (List UInt8)) :
    (advanced s).word (firstRecord + gcBufdata) =
      (s.word (firstRecord + gcBufdata) + 1) % 0x10000 := by
  rw [advanced, word_write_self]

/-- The file is the same. -/
theorem file_advanced (s : State (List UInt8)) :
    (advanced s).word (firstRecord + gcFile) = s.word (firstRecord + gcFile) := by
  simp (disch := decide) only [advanced, countedDown, word_write_field]

/-- A read from the buffer while the word is in front of the record. -/
theorem InFront.getc_buffered (h : InFront s (left + 1) rest) :
    getc linked (oneFile _) s = (some filler, advanced s) ∧ InFront (advanced s) left rest := by
  have hle := h.left_le
  have hbytes := h.bufbytes
  have hdata := h.bufdata (Nat.succ_ne_zero _)
  have hfilled := h.filled (Nat.succ_ne_zero _)
  constructor
  · rw [Getc.getc_buffered h.toReading (by omega), hfilled _ (by omega) (by omega)]
  · refine ⟨h.toReading.advanced, by omega, ?_, fun hleft => ?_, fun _ => hfilled, h.whole, ?_,
      h.fs⟩
    · rw [bufbytes_advanced]
      omega
    · rw [bufdata_advanced]
      omega
    · rw [file_advanced]
      exact h.file

/-- The record when the next four kilobytes are in the buffer. -/
def refilledRecord (s : State (List UInt8)) (rest : Nat) : State (List UInt8) :=
  (((s.write (firstRecord + gcBufdata) (leBytes 0xf000 2)).write (firstRecord + gcBufbytes)
    (leBytes (s.word (firstRecord + gcFile)) 2)).write (firstRecord + gcBufbytes)
      (leBytes 0x1000 2)).write (firstRecord + gcFile) (leBytes (if rest = 0 then 0 else 1) 2)

def refilled (s : State (List UInt8)) (rest : Nat) : State (List UInt8) :=
  { refilledRecord s rest with
    realMode := s.realMode.write 0xf000 (List.replicate 0x1000 filler)
    fs := List.replicate rest filler }

/-- The file is read in pieces of 4 KiB. -/
theorem getfsbytes_oneFile (si : UInt16) :
    (oneFile linked.toPlaces).getfsbytes si (List.replicate (rest + 0x1000) filler) =
      (List.replicate 0x1000 filler, if rest = 0 then 0 else 1, List.replicate rest filler) := by
  have htake : min 0x1000 (rest + 0x1000) = 0x1000 := by omega
  simp only [oneFile, List.take_replicate, List.drop_replicate, List.isEmpty_replicate, htake,
    Nat.add_sub_cancel, decide_eq_true_eq]

/-- An empty buffer is filled from the file. -/
theorem getData_firstRecord (hfile : s.word (firstRecord + gcFile) ≠ 0)
    (hfs : s.fs = List.replicate (rest + 0x1000) filler) :
    getData linked (oneFile _) firstRecord s = (true, refilled s rest) := by
  have hbx : (firstRecord + 0x10000 - linked.getCStack) * 2 ^ 8 % 0x10000 = 0xf000 := rfl
  have hsi : (s.write (firstRecord + gcBufdata) (leBytes 0xf000 2)).word (firstRecord + gcFile) =
      s.word (firstRecord + gcFile) := by
    simp (disch := decide) only [word_write_field]
  have hget := @getfsbytes_oneFile rest (UInt16.ofNat (s.word (firstRecord + gcFile)))
  generalize oneFile linked.toPlaces = env at hget ⊢
  have hfile' : (if rest = 0 then (0 : UInt16) else 1).toNat = if rest = 0 then 0 else 1 := by
    split <;> rfl
  unfold getData
  rw [hbx]
  dsimp only
  rw [hsi, if_neg hfile]
  change (decide ((env.getfsbytes _ s.fs).1.length % 0x10000 ≠ 0), _) = _
  simp only [State.write, hfs, hget, List.length_replicate, hfile']
  rfl

/-- The buffer has fillers. -/
theorem filled_write {realMode : Memory} {a : Nat} (hlo : 0xf000 ≤ a) (hhi : a < 0x10000) :
    realMode.write 0xf000 (List.replicate 0x1000 filler) a = filler := by
  rw [Memory.write, if_pos hlo, List.getD_eq_getElem?_getD, List.getElem?_replicate_of_lt,
    Option.getD_some]
  omega

/-- Behind a refill a whole buffer is left. -/
theorem inFront_refilled (h : Reading s) (hwhole : rest % 0x1000 = 0) :
    InFront (refilled s rest) 0x1000 rest := by
  have hrecord : Reading (refilledRecord s rest) := by
    unfold refilledRecord
    exact (((h.write (by decide)).write (by decide)).write (by decide)).write (by decide)
  refine ⟨⟨hrecord.current, hrecord.count⟩, le_rfl, ?_, fun _ => ?_,
    fun _ a hlo hhi => filled_write hlo hhi, hwhole, fun hrest => ?_, rfl⟩
  · change (refilledRecord s rest).word (firstRecord + gcBufbytes) = 0x1000
    simp (disch := decide) only [refilledRecord, word_write_field, word_write_self]
  · have hdata : (refilledRecord s rest).word (firstRecord + gcBufdata) = 0xf000 := by
      simp (disch := decide) only [refilledRecord, word_write_field, word_write_self]
    change (refilledRecord s rest).word (firstRecord + gcBufdata) + 0x1000 = 0x10000
    rw [hdata]
  · change (refilledRecord s rest).word (firstRecord + gcFile) ≠ 0
    simp only [refilledRecord, word_write_self, if_neg hrest]
    decide

/-- A read at the end of the buffer. -/
theorem InFront.getc_refill (h : InFront s 0 (rest + 0x1000)) :
    ∃ s', getc linked (oneFile _) s = (some filler, s') ∧ InFront s' 0xfff rest := by
  have hfile := h.file (by omega)
  have hwhole := h.whole
  have hbytes := h.bufbytes
  have hempty : (countedDown s).word (firstRecord + gcFile) ≠ 0 := by
    simp (disch := decide) only [countedDown, word_write_field]
    exact hfile
  have hreading : Reading (countedDown s) := h.toReading.write (by decide)
  have hfront := @inFront_refilled _ rest hreading (by omega)
  have hgot : gotData firstRecord s = (none, countedDown s) := by
    unfold gotData
    dsimp only
    rw [if_pos hbytes]
    rfl
  obtain ⟨hget, hnext⟩ := hfront.getc_buffered
  refine ⟨_, ?_, hnext⟩
  rw [Getc.getc_buffered hfront.toReading (by rw [hfront.bufbytes]; decide)] at hget
  unfold getc
  dsimp only
  rw [h.current, h.count, if_neg (not_not.mpr rfl), hgot]
  dsimp only
  rw [getData_firstRecord hempty h.fs]
  dsimp only
  rw [gotData_firstRecord (by rw [hfront.bufbytes]; decide), hget]

/-- Each read gives the character, as long as there is something left. -/
theorem InFront.getc (h : InFront s left rest) (hpos : 0 < left + rest) :
    ∃ s' left' rest', getc linked (oneFile _) s = (some filler, s') ∧ InFront s' left' rest' ∧
      left' + rest' + 1 = left + rest := by
  cases left with
  | succ left => exact ⟨_, left, rest, h.getc_buffered.1, h.getc_buffered.2, by omega⟩
  | zero =>
    have hwhole := h.whole
    obtain ⟨rest, rfl⟩ := Nat.exists_eq_add_of_le' (show 0x1000 ≤ rest by omega)
    obtain ⟨s', hget, hfront⟩ := h.getc_refill
    exact ⟨s', 0xfff, rest, hget, hfront, by omega⟩

/-- A read while the word is stored over the record. -/
theorem Over.getc (h : Over s (n + 1)) :
    getc linked (oneFile _) s = (some filler, advanced s) ∧ Over (advanced s) n := by
  have hbytes := h.bufbytes
  have hge := h.bufdata_ge
  have hlt := h.bufdata_lt
  have hword := word_lt s (firstRecord + gcBufbytes)
  constructor
  · rw [getc_buffered h.toReading (by omega), h.filled _ hge (by omega)]
  · refine ⟨h.toReading.advanced, ?_, ?_, ?_, h.filled⟩
    · rw [bufbytes_advanced]
      omega
    · rw [bufdata_advanced]
      omega
    · rw [bufdata_advanced]
      omega

/-! ## Storing -/

/-- A byte behind a store of one. -/
theorem byte_write_singleton {a c : Nat} {b : UInt8} (ha : a < 0x10000) (hc : c < 0x10000) :
    (s.write a [b]).byte c = if c = a then b else s.byte c := by
  split
  · next h => rw [h, byte_write_self]
  · next h =>
    apply byte_write_of_ne
    intro i hi
    obtain rfl := Nat.lt_one_iff.mp hi
    omega

/-- Stores elsewhere leave the record as it is. -/
theorem InFront.congr (h : InFront s left rest) (hrealMode : s'.realMode = s.realMode)
    (hfs : s'.fs = s.fs) (hseg : ∀ a, firstRecord ≤ a ∧ a < firstRecord + gcUngetBuf ∨
      a = linked.currentGetC ∨ a = linked.currentGetC + 1 → s'.seg a = s.seg a) :
    InFront s' left rest := by
  have hrecord : firstRecord = 0x3c40 := rfl
  have hbuf : gcUngetBuf = 7 := rfl
  have hbyte : ∀ k < gcUngetBuf, s'.byte (firstRecord + k) = s.byte (firstRecord + k) :=
    fun k hk => byte_congr (by omega) (hseg _ (.inl ⟨by omega, by omega⟩))
  have hword : ∀ k, k + 1 < gcUngetBuf →
      s'.word (firstRecord + k) = s.word (firstRecord + k) :=
    fun k hk => word_congr (hbyte k (by omega)) (hbyte (k + 1) hk)
  have hcurrent : s'.word linked.currentGetC = s.word linked.currentGetC :=
    word_congr (byte_congr (by decide) (hseg _ (.inr (.inl rfl))))
      (byte_congr (by decide) (hseg _ (.inr (.inr rfl))))
  refine ⟨⟨?_, ?_⟩, h.left_le, ?_, ?_, ?_, h.whole, ?_, ?_⟩
  · rw [hcurrent, h.current]
  · rw [hbyte _ (by decide), h.count]
  · rw [hword _ (by decide), h.bufbytes]
  · rw [hword _ (by decide)]
    exact h.bufdata
  · unfold Filled
    rw [hrealMode]
    exact h.filled
  · rw [hword _ (by decide)]
    exact h.file
  · rw [hfs, h.fs]

/-- A store apart from the record and the buffer leaves what is in front. -/
theorem InFront.write {a : Nat} {bs : List UInt8} (h : InFront s left rest)
    (hbs : a + bs.length ≤ firstRecord ∨
      firstRecord + getcFileSize ≤ a ∧ linked.currentGetC + 1 < a ∧ a + bs.length ≤ 0x10000) :
    InFront (s.write a bs) left rest := by
  have hrecord : firstRecord = 0x3c40 := rfl
  have hcurrent : linked.currentGetC = 0x9720 := rfl
  have hsize : getcFileSize = 16 := rfl
  have hbuf : gcUngetBuf = 7 := rfl
  refine h.congr rfl rfl fun c hc => ?_
  apply seg_write_of_ne
  intro i hi
  omega

/-- A character of the word in front of the record. -/
theorem InFront.stosb (h : InFront s left rest) (hdi : di < firstRecord) :
    InFront (s.write di [al]) left rest :=
  h.write (.inl hdi)

/-- At the record there are as many characters left as it takes to get to the count. -/
theorem InFront.over (h : InFront s left rest) (hleft : left + rest = 0x3c0) : Over s 8 := by
  have hwhole := h.whole
  have hbytes := h.bufbytes
  have hdata := h.bufdata (by omega)
  exact ⟨h.toReading, by omega, by omega, by omega, h.filled (by omega)⟩

/-- A character of the word over the fields in front of the count. -/
theorem Over.stosb (h : Over s n) (hn : n ≤ 8) (hk : k < gcUngetCnt) :
    Over (s.write (firstRecord + k) [filler]) n := by
  have hrecord : firstRecord = 0x3c40 := rfl
  have hcurrent : linked.currentGetC = 0x9720 := rfl
  have hfiller : filler.toNat = 0xf5 := rfl
  have hfields : gcBufbytes = 2 ∧ gcBufdata = 4 ∧ gcUngetCnt = 6 := ⟨rfl, rfl, rfl⟩
  have hbytes := h.bufbytes
  have hge := h.bufdata_ge
  have hlt := h.bufdata_lt
  have hbyte : ∀ c < 0x10000, (s.write (firstRecord + k) [filler]).byte c =
      if c = firstRecord + k then filler else s.byte c :=
    fun c hc => byte_write_singleton (by omega) hc
  have hbound : ∀ c, (s.byte c).toNat < 256 := fun c => (s.byte c).toNat_lt
  have h2 := hbound (firstRecord + gcBufbytes)
  have h3 := hbound (firstRecord + gcBufbytes + 1)
  have h4 := hbound (firstRecord + gcBufdata)
  have h5 := hbound (firstRecord + gcBufdata + 1)
  unfold State.word at hbytes hge hlt
  refine ⟨⟨?_, ?_⟩, ?_, ?_, ?_, h.filled⟩
  · refine (word_congr ?_ ?_).trans h.current
    · rw [hbyte _ (by omega), if_neg (by omega)]
    · rw [hbyte _ (by omega), if_neg (by omega)]
  · rw [hbyte _ (by omega), if_neg (by omega), h.count]
  · rw [State.word, hbyte _ (by omega), hbyte _ (by omega)]
    split <;> split <;> omega
  · rw [State.word, hbyte _ (by omega), hbyte _ (by omega)]
    split <;> split <;> omega
  · rw [State.word, hbyte _ (by omega), hbyte _ (by omega)]
    split <;> split <;> omega

/-! ## The run -/

/-- The count of the record is a character of the word. -/
def Overrun (e : Event Op.Ret (State (List UInt8))) : Prop :=
  IsOpen linked e.after firstRecord ∧ 1 < ungetCnt e.after firstRecord

/-- The next store is to the count of pushed back characters. -/
theorem Over.overrun (h : Over s n) :
    Overrun (eventOf (exec linked (oneFile _)) (.stosb (firstRecord + gcUngetCnt) [filler]) s) := by
  have hword : (s.write (firstRecord + gcUngetCnt) [filler]).word linked.currentGetC =
      firstRecord :=
    (word_write_byte s (by decide) (by decide) (.inr (by decide))).trans h.current
  refine ⟨⟨0, hword.symm, by decide⟩, ?_⟩
  change 1 < ((s.write (firstRecord + gcUngetCnt) [filler]).byte (firstRecord + gcUngetCnt)).toNat
  rw [byte_write_self]
  decide

/-- A pass of `.read_loop`. -/
theorem run_readStep (hget : getc linked (oneFile _) s = (some filler, s')) :
    (Parser.readStep ⟨di, ebx⟩).run (exec linked (oneFile _)) s =
      ([eventOf (exec linked (oneFile _)) .getc s,
        eventOf (exec linked (oneFile _)) (.stosb di [filler]) s'],
        some (.inl ⟨di + 1, Config.rol5 ebx ^^^ (filler ||| 0x20).toUInt32⟩,
          s'.write di [filler])) := by
  have hexec : exec linked (oneFile _) .getc s = (some filler, s') := hget
  change Program.run _ (.op Op.getc _) _ = _
  rw [Program.run, hexec]
  rfl

/-- The word goes on with the next character. -/
theorem reaches_readLoop {fuel : Nat} (hget : getc linked (oneFile _) s = (some filler, s'))
    (hnext : ∀ ebx, (Program.loop Parser.readStep fuel ⟨di + 1, ebx⟩).Reaches
      (exec linked (oneFile _)) Overrun (s'.write di [filler])) :
    (Program.loop Parser.readStep (fuel + 1) ⟨di, ebx⟩).Reaches (exec linked (oneFile _))
      Overrun s :=
  Program.reaches_bind_of_run (congrArg Prod.snd (run_readStep hget)) (hnext _)

/-- From the record on it takes a few characters to get to the count. -/
theorem Over.reaches {fuel : Nat} (h : Over s (n + 2)) (hn : n ≤ 6)
    (hk : k + n = gcUngetCnt) (hfuel : n < fuel) :
    (Program.loop Parser.readStep fuel ⟨firstRecord + k, ebx⟩).Reaches (exec linked (oneFile _))
      Overrun s := by
  induction n generalizing s k ebx fuel with
  | zero =>
    obtain rfl : k = gcUngetCnt := hk
    obtain ⟨fuel, rfl⟩ := Nat.exists_eq_succ_of_ne_zero hfuel.ne'
    obtain ⟨hget, hover⟩ := h.getc
    apply Program.Reaches.bind
    refine ⟨_, ?_, hover.overrun⟩
    rw [run_readStep hget]
    exact List.mem_cons_of_mem _ List.mem_cons_self
  | succ n ih =>
    obtain ⟨fuel, rfl⟩ := Nat.exists_eq_succ_of_ne_zero (Nat.ne_zero_of_lt hfuel)
    obtain ⟨hget, hover⟩ := h.getc
    refine reaches_readLoop hget fun ebx => ?_
    have hstore : Over ((advanced s).write (firstRecord + k) [filler]) (n + 2) :=
      hover.stosb (by omega) (by omega)
    have hnext : k + 1 + n = gcUngetCnt := by omega
    exact ih hstore (by omega) hnext (by omega)

/-- In front of the record the file is read on. -/
theorem InFront.reaches {fuel : Nat} (h : InFront s left rest) (hdi : di + n = firstRecord)
    (hleft : left + rest = n + 0x3c0) (hfuel : n + 6 < fuel) :
    (Program.loop Parser.readStep fuel ⟨di, ebx⟩).Reaches (exec linked (oneFile _)) Overrun s := by
  induction n generalizing s di left rest ebx fuel with
  | zero =>
    obtain rfl : di = firstRecord := hdi
    have hover : Over s 8 := h.over (by omega)
    exact hover.reaches le_rfl rfl (by omega)
  | succ n ih =>
    obtain ⟨fuel, rfl⟩ := Nat.exists_eq_succ_of_ne_zero (Nat.ne_zero_of_lt hfuel)
    obtain ⟨s', left', rest', hget, hfront, hcount⟩ := h.getc (by omega)
    refine reaches_readLoop hget fun ebx => ?_
    exact ih (hfront.stosb (by omega)) (by omega) (by omega) (by omega)

/-! ## From the start -/

/-- The file is opened. -/
theorem coreOpen_longWord (name : Nat) :
    ∃ s', coreOpen linked (oneFile _) name
      (State.loaded linked ⟨fun _ => 0, fun _ => 0, longWord⟩) = (true, s') ∧
        InFront s' 0 0x3000 := by
  have hempty := stacked_loaded linked (⟨fun _ => 0, fun _ => 0, longWord⟩ : State (List UInt8))
  generalize hstart : State.loaded linked ⟨fun _ => 0, fun _ => 0, longWord⟩ = s at hempty ⊢
  have hfs : s.fs = longWord := hstart ▸ rfl
  have hcurrent : s.word linked.currentGetC = 0x3c50 := hempty.current_eq
  have hopen : coreOpen linked (oneFile _) name s = openfd linked (oneFile _) 1 s := rfl
  have hnew : (s.word linked.currentGetC + 0x10000 - getcFileSize) % 0x10000 = firstRecord := by
    rw [hcurrent]
    rfl
  rw [hopen, openfd_eq hnew, if_neg (by decide)]
  refine ⟨_, rfl, ?_⟩
  unfold pushRecord
  rw [show ([0, 0] : List UInt8) = leBytes 0 2 from (leBytes_two 0).symm]
  refine ⟨⟨?_, byte_write_self⟩, Nat.zero_le _, ?_, nofun, nofun, rfl, fun _ => ?_, hfs⟩
  · simp (disch := decide) only [word_write_byte, word_write_field, word_write_self]
    rfl
  · simp (disch := decide) only [word_write_byte, word_write_self, Nat.zero_mod]
  · simp (disch := decide) only [word_write_byte, word_write_field, word_write_self]
    decide

/-- The first character is read. -/
theorem run_skipspace {fuel : Nat} (hget : getc linked (oneFile _) s = (some filler, s')) :
    ((Parser.skipspace (fuel + 1)).run (exec linked (oneFile _)) s).2 =
      some (.char filler, s') := by
  have hexec : exec linked (oneFile _) .getc s = (some filler, s') := hget
  change (Program.run _ (.op Op.getc _) _).2 = _
  rw [Program.run, hexec]
  rfl

/-- The first word of the file. -/
theorem getcommand_longWord {fuel : Nat} (h : InFront s 0 0x3000) (hfuel : 0x2c45 < fuel) :
    (Parser.getcommand linked fuel).Reaches (exec linked (oneFile _)) Overrun s := by
  obtain ⟨fuel, rfl⟩ := Nat.exists_eq_succ_of_ne_zero (Nat.ne_zero_of_lt hfuel)
  obtain ⟨s', left, rest, hget, hfront, hcount⟩ := h.getc (by decide)
  have hword : firstRecord = 0x3c40 := rfl
  have htrackbuf : linked.addr .trackbuf = 0x1000 := rfl
  have hlength : linked.addr .trackbuf + 1 + 0x2c3f = firstRecord := rfl
  have hloop : ∀ ebx, (Program.loop Parser.readStep (fuel + 1)
      ⟨linked.addr .trackbuf + 1, ebx⟩).Reaches (exec linked (oneFile _)) Overrun
        (s'.write (linked.addr .trackbuf) [filler]) := fun ebx =>
    (hfront.stosb (by omega)).reaches hlength (by omega) (by omega)
  apply Program.Reaches.bind
  apply Program.reaches_bind_of_run (run_skipspace hget)
  change (Parser.firstChar linked (fuel + 1) filler).Reaches _ _ _
  unfold Parser.firstChar
  rw [if_neg (by decide)]
  exact Program.reaches_bind_of_run rfl (Program.Reaches.bind (hloop _) _)

/-- Once the file is open, the run gets there. -/
theorem loadConfig_longWord {fuel : Nat}
    (hopen : coreOpen linked (oneFile _) (linked.addr .configName) s = (true, s'))
    (hfront : InFront s' 0 0x3000) (hfuel : 0x2c45 < fuel) :
    (Parser.loadConfig linked fuel).Reaches (exec linked (oneFile _)) Overrun s := by
  have hrun : ((Parser.coreOpen (linked.addr .configName)).run (exec linked (oneFile _)) s).2 =
      some (true, s') := Program.run_call hopen
  apply Program.reaches_bind_of_run hrun
  change (Parser.parseConfig linked fuel).Reaches _ _ _
  have hfront' : InFront (s'.write (linked.addr .vKernelBuf + 0)
      (List.replicate Config.vkSize 0)) 0 0x3000 := by
    apply hfront.write
    rw [List.length_replicate]
    exact .inr (by decide)
  refine Program.reaches_bind_of_run rfl (Program.Reaches.bind ?_ _)
  obtain ⟨fuel, rfl⟩ := Nat.exists_eq_succ_of_ne_zero (Nat.ne_zero_of_lt hfuel)
  exact ((getcommand_longWord hfront' hfuel).bind _).bind _

/-- With a word of this length, the records of the open files are lost. -/
theorem not_parse_config_pushesBack : ¬ ∀ (φ : Type) (L : Layout) (env : Env L.toPlaces φ)
    (fuel : Nat) (s : State φ), PushesBack L (parseLog L env fuel s) := by
  intro h
  obtain ⟨s, hstart, hfront⟩ := coreOpen_longWord (linked.addr .configName)
  obtain ⟨e, he, hopen, hcount⟩ := @loadConfig_longWord _ _ 0x3000 hstart hfront (by decide)
  have hle := (h _ linked (oneFile _) 0x3000 ⟨fun _ => 0, fun _ => 0, longWord⟩).count_le e he _
    (.inr rfl) _ hopen
  omega

end Liigboot.Getc
