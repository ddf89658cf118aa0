import Liigboot.Getc.Stack

/-!
# One character at most

All records but that of the file on top have nothing pushed back, and that one has at most one
character. Each operation says which of the two it needs and which it leaves.
-/

namespace Liigboot.Getc

variable {φ : Type} {L : Layout} {env : Env L.toPlaces φ} {s s' : State φ}
  {files level top a c n : Nat} {bs : List UInt8} {b al : UInt8}

/-! ## Stores -/

/-- The addresses of a store in the segment. -/
theorem mem_segStores {x : Nat × UInt8} (h : x ∈ segStores a bs) :
    ∃ i < bs.length, x.1 = (a + i) % 0x10000 := by
  induction bs generalizing a with
  | nil => exact absurd h List.not_mem_nil
  | cons b bs ih =>
    rcases List.mem_cons.mp h with rfl | h
    · exact ⟨0, Nat.succ_pos _, rfl⟩
    · obtain ⟨i, hi, hx⟩ := ih h
      exact ⟨i + 1, Nat.succ_lt_succ hi, by rw [hx, Nat.add_right_comm, Nat.add_assoc]⟩

/-- A store leaves the bytes at other addresses. -/
theorem seg_write_of_ne (h : ∀ i < bs.length, (a + i) % 0x10000 ≠ c) :
    (s.write a bs).seg c = s.seg c := by
  apply putAll_of_ne
  intro x hx
  obtain ⟨i, hi, hx⟩ := mem_segStores hx
  rw [hx]
  exact h i hi

/-- It leaves them also when addresses wrap. -/
theorem byte_write_of_ne (h : ∀ i < bs.length, (a + i) % 0x10000 ≠ c % 0x10000) :
    (s.write a bs).byte c = s.byte c :=
  seg_write_of_ne h

theorem byte_write_self : (s.write a [b]).byte a = b := by
  simp only [State.byte, State.write, segStores, putAll, put_self]

/-- The bytes of a word, the low one first. -/
theorem leBytes_two (n : Nat) : leBytes n 2 = [UInt8.ofNat n, UInt8.ofNat (n / 256)] := by
  simp [leBytes, List.range_succ]

theorem word_write_self : (s.write a (leBytes n 2)).word a = n % 0x10000 := by
  have hne : a % 0x10000 ≠ (a + 1) % 0x10000 := by omega
  simp only [leBytes_two, State.word, State.byte, State.write, segStores, putAll, put_self,
    put_of_ne _ hne, UInt8.toNat_ofNat']
  omega

/-- A word has 16 bits. -/
theorem word_lt (s : State φ) (a : Nat) : s.word a < 0x10000 := by
  have hlo := (s.byte a).toNat_lt
  have hhi := (s.byte (a + 1)).toNat_lt
  unfold State.word
  omega

/-- A word is made of its two bytes. -/
theorem word_congr (h : s'.byte a = s.byte a) (h' : s'.byte (a + 1) = s.byte (a + 1)) :
    s'.word a = s.word a := by
  rw [State.word, State.word, h, h']

/-- A store that misses both bytes leaves a word. -/
theorem word_write_of_ne
    (h : ∀ i < bs.length, (a + i) % 0x10000 ≠ c % 0x10000 ∧ (a + i) % 0x10000 ≠ (c + 1) % 0x10000) :
    (s.write a bs).word c = s.word c :=
  word_congr (byte_write_of_ne fun i hi => (h i hi).1) (byte_write_of_ne fun i hi => (h i hi).2)

/-! ## The invariant -/

/-- The address of the record of an open file, the one on top first. -/
def record (L : Layout) (s : State φ) (i : Nat) : Nat := s.word L.currentGetC + getcFileSize * i

/-- The number of characters that are pushed back in a record. -/
def ungetCnt (s : State φ) (record : Nat) : Nat := (s.byte (record + gcUngetCnt)).toNat

/-- Some files are open, of which so many count for the level, and only the one on top may have
characters pushed back. -/
structure Stacked (L : Layout) (s : State φ) (files level top : Nat) : Prop where
  files_le : files ≤ maxGetc
  current : record L s files = L.getCEnd
  level_eq : s.word L.includeLevel = level
  top_le : 0 < files → ungetCnt s (record L s 0) ≤ top
  below : ∀ i < files, 0 < i → ungetCnt s (record L s i) = 0

/-- The addresses that matter for it: the records of the open files, and the two variables. -/
def Guarded (L : Layout) (s : State φ) (a : Nat) : Prop :=
  s.word L.currentGetC ≤ a ∧ a < L.getCEnd ∨ a = L.currentGetC ∨ a = L.currentGetC + 1 ∨
    a = L.includeLevel ∨ a = L.includeLevel + 1

instance : Decidable (Guarded L s a) := inferInstanceAs (Decidable (_ ∨ _))

/-- The stack of files has 256 bytes. -/
theorem getCEnd_eq (L : Layout) : L.getCEnd = L.getCStack + 256 := rfl

/-- The current record is as far below the end of the stack as there are files. -/
theorem Stacked.current_eq (h : Stacked L s files level top) :
    s.word L.currentGetC + 16 * files = L.getCStack + 256 :=
  h.current

/-- The current record is not below the start of the stack. -/
theorem Stacked.getCStack_le (h : Stacked L s files level top) :
    L.getCStack ≤ s.word L.currentGetC := by
  have heq := h.current_eq
  have hle := h.files_le
  have hmax : maxGetc = 16 := rfl
  omega

/-- A larger count of characters that are pushed back is a weaker promise. -/
theorem Stacked.mono {top' : Nat} (h : Stacked L s files level top) (htop : top ≤ top') :
    Stacked L s files level top' :=
  { h with top_le := fun hfiles => (h.top_le hfiles).trans htop }

/-- The invariant is about the two variables and the counts. -/
theorem Stacked.of_cnt {top' : Nat} (h : Stacked L s files level top)
    (hcur : s'.word L.currentGetC = s.word L.currentGetC)
    (hlvl : s'.word L.includeLevel = s.word L.includeLevel)
    (htop : 0 < files → ungetCnt s' (record L s 0) ≤ top')
    (hbelow : ∀ i < files, 0 < i → ungetCnt s' (record L s i) = 0) :
    Stacked L s' files level top' := by
  have hrecord : ∀ i, record L s' i = record L s i := fun i => by rw [record, record, hcur]
  refine ⟨h.files_le, ?_, ?_, fun hfiles => ?_, fun i hi hpos => ?_⟩
  · rw [hrecord, h.current]
  · rw [hlvl, h.level_eq]
  · rw [hrecord]
    exact htop hfiles
  · rw [hrecord]
    exact hbelow i hi hpos

/-- A byte in the segment is the one at its address. -/
theorem byte_congr (ha : a < 0x10000) (h : s'.seg a = s.seg a) : s'.byte a = s.byte a := by
  rw [State.byte, State.byte, Nat.mod_eq_of_lt ha, h]

/-- The count of an open file is in the stack. -/
theorem Stacked.cnt_mem (h : Stacked L s files level top) {i : Nat} (hi : i < files) :
    s.word L.currentGetC + 16 * i + 6 < L.getCEnd := by
  have heq := h.current_eq
  rw [getCEnd_eq]
  omega

/-- Nothing else than the guarded addresses matters. -/
theorem Stacked.congr (h : Stacked L s files level top)
    (hseg : ∀ a, Guarded L s a → s'.seg a = s.seg a) : Stacked L s' files level top := by
  have hend := L.getCEnd_lt
  have hcur := L.currentGetC_lt
  have hlvl := L.includeLevel_lt
  have hcnt : ∀ i < files, ungetCnt s' (record L s i) = ungetCnt s (record L s i) := by
    intro i hi
    have hmem := h.cnt_mem hi
    rw [ungetCnt, ungetCnt]
    congr 1
    exact byte_congr (hmem.trans hend) (hseg _ (.inl ⟨Nat.le_add_right_of_le (Nat.le_add_right _ _),
      hmem⟩))
  refine h.of_cnt ?_ ?_ (fun hfiles => ?_) (fun i hi hpos => ?_)
  · exact word_congr (byte_congr (by omega) (hseg _ (.inr (.inl rfl))))
      (byte_congr hcur (hseg _ (.inr (.inr (.inl rfl)))))
  · exact word_congr (byte_congr (by omega) (hseg _ (.inr (.inr (.inr (.inl rfl))))))
      (byte_congr hlvl (hseg _ (.inr (.inr (.inr (.inr rfl))))))
  · rw [hcnt 0 hfiles]
    exact h.top_le hfiles
  · rw [hcnt i hi]
    exact h.below i hi hpos

/-- The guarded addresses are reserved. -/
theorem Stacked.reserved (h : Stacked L s files level top) (hg : Guarded L s a) : L.Reserved a := by
  have heq := h.current_eq
  have hfiles := h.files_le
  have hmax : maxGetc = 16 := rfl
  unfold Guarded at hg
  unfold Places.Reserved
  omega

/-- Nothing but some bytes of a record changes. -/
def Within (record off len : Nat) (s s' : State φ) : Prop :=
  ∀ c, (∀ i < len, (record + off + i) % 0x10000 ≠ c) → s'.seg c = s.seg c

/-- Two steps that store only within a range do so together. -/
theorem Within.trans {di off len : Nat} {s'' : State φ} (h : Within di off len s s')
    (h' : Within di off len s' s'') : Within di off len s s'' :=
  fun c hc => (h' c hc).trans (h c hc)

/-- A store in a range is within it. -/
theorem Within.write {di off len k : Nat} (hk : off ≤ k) (hlen : k + bs.length ≤ off + len) :
    Within di off len s (s.write (di + k) bs) := by
  intro c hc
  apply seg_write_of_ne
  intro i hi
  have hne := hc (k - off + i) (by omega)
  rwa [show di + off + (k - off + i) = di + k + i by omega] at hne

/-- Changes of the record on top keep the invariant, as far as its count allows. -/
theorem Stacked.of_within {top' : Nat} (h : Stacked L s files level top) (hfiles : 0 < files)
    (hown : Within (s.word L.currentGetC) 0 getcFileSize s s')
    (htop : ungetCnt s' (record L s 0) ≤ top') : Stacked L s' files level top' := by
  have heq := h.current_eq
  have hle := h.files_le
  have hend := L.getCEnd_lt
  have hcur := L.currentGetC_lt
  have hlvl := L.includeLevel_lt
  have hcapart := L.currentGetC_apart
  have hlapart := L.includeLevel_apart
  have hmax : maxGetc = 16 := rfl
  have hsize : getcFileSize = 16 := rfl
  rw [getCEnd_eq] at hend hcapart hlapart
  have hkeep : ∀ a < 0x10000, (a < s.word L.currentGetC ∨ s.word L.currentGetC + 16 ≤ a) →
      s'.byte a = s.byte a := fun a ha hout =>
    byte_congr ha (hown a fun i hi => by omega)
  refine h.of_cnt ?_ ?_ (fun _ => htop) (fun i hi hpos => ?_)
  · exact word_congr (hkeep _ (by omega) (by omega)) (hkeep _ hcur (by omega))
  · exact word_congr (hkeep _ (by omega) (by omega)) (hkeep _ hlvl (by omega))
  · have hrec : record L s i + gcUngetCnt = s.word L.currentGetC + 16 * i + 6 := rfl
    rw [ungetCnt, hkeep _ (by omega) (by omega)]
    exact h.below i hi hpos

/-! ## The operations -/

/-- The first three fields are words. -/
theorem within_field (di k n : Nat) (s : State φ) (hk : k ≤ 4) :
    Within di 0 6 s (s.write (di + k) (leBytes n 2)) :=
  Within.write (Nat.zero_le k) (by rw [length_leBytes]; omega)

/-- Taking a byte from the buffer changes the fields of the record only. -/
theorem gotData_within (di : Nat) (s : State φ) : Within di 0 6 s (gotData di s).2 := by
  unfold gotData
  dsimp only
  split
  · exact within_field _ _ _ _ (by decide)
  · exact (within_field _ _ _ _ (by decide)).trans (within_field _ _ _ _ (by decide))

/-- So does reading the next piece of the file. -/
theorem getData_within (di : Nat) (s : State φ) : Within di 0 6 s (getData L env di s).2 := by
  have hfields : ∀ bx si, Within di 0 6 s
      ((s.write (di + gcBufdata) (leBytes bx 2)).write (di + gcBufbytes) (leBytes si 2)) :=
    fun _ _ => (within_field _ _ _ _ (by decide)).trans (within_field _ _ _ _ (by decide))
  have hrefill : ∀ n si (s' : State φ), Within di 0 6 s'
      ((s'.write (di + gcBufbytes) (leBytes n 2)).write (di + gcFile) (leBytes si 2)) :=
    fun _ _ _ => (within_field _ _ _ _ (by decide)).trans (within_field _ _ _ _ (by decide))
  unfold getData
  dsimp only
  split
  · exact hfields _ _
  · exact fun c hc => (hrefill _ _ _ c hc).trans (hfields _ _ c hc)

/-- Without a character that was pushed back, the buffer is read. -/
theorem getc_within (h : ungetCnt s (record L s 0) = 0) :
    Within (s.word L.currentGetC) 0 6 s (getc L env s).2 := by
  have hcnt : s.byte (s.word L.currentGetC + gcUngetCnt) = 0 := UInt8.toNat_inj.mp h
  unfold getc
  dsimp only
  rw [if_neg (not_not.mpr hcnt)]
  have hgot := gotData_within (s.word L.currentGetC) s
  split
  · next heq =>
    rw [heq] at hgot
    exact hgot
  · next mid heq =>
    rw [heq] at hgot
    have hdata := @getData_within φ L env (s.word L.currentGetC) mid
    split
    · next heq =>
      rw [heq] at hdata
      exact (hgot.trans hdata).trans (gotData_within _ _)
    · next heq =>
      rw [heq] at hdata
      exact hgot.trans hdata

/-- A character that was pushed back is read first. -/
theorem getc_unget (h : ungetCnt s (record L s 0) = 1) :
    getc L env s = (some (s.byte (record L s 0 + gcUngetBuf)),
      s.write (record L s 0 + gcUngetCnt) [0]) := by
  have hcnt : s.byte (s.word L.currentGetC + gcUngetCnt) = 1 := UInt8.toNat_inj.mp h
  unfold getc
  dsimp only
  rw [hcnt]
  rfl

/-- What is within a range is within a larger one. -/
theorem Within.mono {di off len off' len' : Nat} (h : Within di off len s s') (hoff : off' ≤ off)
    (hlen : off + len ≤ off' + len') : Within di off' len' s s' := by
  intro c hc
  apply h
  intro i hi
  have hne := hc (off - off' + i) (by omega)
  rwa [show di + off' + (off - off' + i) = di + off + i by omega] at hne

/-- A byte outside of the range is left. -/
theorem Within.byte {di off len : Nat} (h : Within di off len s s')
    (hc : ∀ i < len, (di + off + i) % 0x10000 ≠ c % 0x10000) : s'.byte c = s.byte c :=
  h _ hc

/-- `getc` leaves nothing pushed back. -/
theorem Stacked.after_getc (h : Stacked L s files level 1) (hfiles : 0 < files) :
    Stacked L (getc L env s).2 files level 0 := by
  have hend := L.getCEnd_lt
  have hmem := h.cnt_mem hfiles
  rcases Nat.le_one_iff_eq_zero_or_eq_one.mp (h.top_le hfiles) with hcnt | hcnt
  · have hwithin := @getc_within φ L env s hcnt
    refine h.of_within hfiles (hwithin.mono (Nat.le_refl _) (by decide)) ?_
    rw [ungetCnt, hwithin.byte]
    · exact hcnt.le
    · intro i hi
      have hrec : record L s 0 + gcUngetCnt = s.word L.currentGetC + 16 * 0 + 6 := rfl
      omega
  · rw [getc_unget hcnt]
    refine h.of_within hfiles (Within.write (Nat.zero_le _) (by simp [gcUngetCnt, getcFileSize,
      gcUngetBuf, maxUnget])) ?_
    rw [ungetCnt, byte_write_self]
    rfl

/-- What `ungetc` does to a record with nothing pushed back. -/
theorem ungetc_eq (h : ungetCnt s (record L s 0) = 0) :
    ungetc L al s = (s.write (s.word L.currentGetC + gcUngetBuf) [al]).write
      (s.word L.currentGetC + gcUngetCnt) [1] := by
  have hcnt : s.byte (s.word L.currentGetC + gcUngetCnt) = 0 := UInt8.toNat_inj.mp h
  unfold ungetc
  dsimp only
  rw [hcnt, show (0 : UInt8).toNat = 0 from rfl, Nat.zero_add]
  rfl

/-- A character is pushed back within the record while there is room. -/
theorem ungetc_within (h : ungetCnt s (record L s 0) = 0) :
    Within (s.word L.currentGetC) 0 getcFileSize s (ungetc L al s) := by
  rw [ungetc_eq h]
  exact (Within.write (Nat.zero_le _) (by simp [gcUngetBuf, getcFileSize, maxUnget])).trans
    (Within.write (Nat.zero_le _) (by simp [gcUngetCnt, gcUngetBuf, getcFileSize, maxUnget]))

/-- `ungetc` puts the character into the record and leaves the count at one. -/
theorem ungetc_pushed (h : ungetCnt s (record L s 0) = 0) :
    ungetCnt (ungetc L al s) (record L s 0) = 1 ∧
      (ungetc L al s).byte (record L s 0 + gcUngetBuf) = al := by
  have hrec : record L s 0 = s.word L.currentGetC := rfl
  rw [ungetc_eq h, hrec]
  constructor
  · rw [ungetCnt, byte_write_self]
    rfl
  · rw [byte_write_of_ne, byte_write_self]
    intro i hi
    obtain rfl := Nat.lt_one_iff.mp hi
    simp only [gcUngetCnt, gcUngetBuf]
    omega

/-- `ungetc` is called with nothing pushed back. -/
theorem Stacked.after_ungetc (h : Stacked L s files level 0) (hfiles : 0 < files) :
    Stacked L (ungetc L al s) files level 1 := by
  have hcnt := Nat.le_zero.mp (h.top_le hfiles)
  exact h.of_within hfiles (ungetc_within hcnt) (ungetc_pushed hcnt).1.le

/-- A new record in front of the records that were open. -/
theorem Stacked.opened (h : Stacked L s files level 0) (hfiles : files < maxGetc)
    (hcur : s'.word L.currentGetC + getcFileSize = s.word L.currentGetC)
    (hlvl : s'.word L.includeLevel = s.word L.includeLevel)
    (hcnt : ungetCnt s' (s'.word L.currentGetC) = 0)
    (hseg : ∀ a, s.word L.currentGetC ≤ a → a < L.getCEnd → s'.seg a = s.seg a) :
    Stacked L s' (files + 1) level 0 := by
  have hend := L.getCEnd_lt
  have hrecord : ∀ i, record L s' (i + 1) = record L s i := fun i => by
    rw [record, record, ← hcur, Nat.mul_succ]
    omega
  refine ⟨hfiles, ?_, ?_, fun _ => ?_, fun i hi hpos => ?_⟩
  · rw [hrecord, h.current]
  · rw [hlvl, h.level_eq]
  · exact hcnt.le
  · obtain ⟨i, rfl⟩ := Nat.exists_eq_add_of_le' hpos
    have hi := Nat.lt_of_succ_lt_succ hi
    have hmem := h.cnt_mem hi
    have hold : ungetCnt s' (record L s i) = ungetCnt s (record L s i) := by
      rw [ungetCnt, ungetCnt]
      congr 1
      exact byte_congr (hmem.trans hend)
        (hseg _ (Nat.le_add_right_of_le (Nat.le_add_right _ _)) hmem)
    rw [hrecord, hold]
    rcases Nat.eq_zero_or_pos i with rfl | hpos
    · exact Nat.le_zero.mp (h.top_le hi)
    · exact h.below i hi hpos

/-- The stores of `openfd`. -/
def pushRecord (L : Layout) (si : UInt16) (new : Nat) (s : State φ) : State φ :=
  (((s.write L.currentGetC (leBytes new 2)).write (new + gcFile) (leBytes si.toNat 2)).write
    (new + gcBufbytes) [0, 0]).write (new + gcUngetCnt) [0]

/-- A file is opened when its record is not below the start of the stack. -/
theorem openfd_eq {si : UInt16} {new : Nat}
    (hnew : (s.word L.currentGetC + 0x10000 - getcFileSize) % 0x10000 = new) :
    openfd L env si s = if new < L.getCStack then (false, { s with fs := env.closeFile si s.fs })
      else (true, pushRecord L si new s) := by
  unfold openfd
  rw [hnew]
  rfl

/-- A new record is filled within itself. -/
theorem pushRecord_within (si : UInt16) (new : Nat) (s : State φ) :
    Within new 0 getcFileSize (s.write L.currentGetC (leBytes new 2)) (pushRecord L si new s) := by
  have hsize : getcFileSize = 16 := rfl
  unfold pushRecord
  refine (Within.trans (Within.write (Nat.zero_le _) ?_) (Within.write (Nat.zero_le _) ?_)).trans
    (Within.write (Nat.zero_le _) ?_)
  · rw [length_leBytes, gcFile, hsize]
    decide
  · simp [gcBufbytes, hsize]
  · simp [gcUngetCnt, hsize]

/-- The new record has nothing pushed back. -/
theorem Stacked.after_pushRecord {si : UInt16} {new : Nat} (h : Stacked L s files level 0)
    (hnew : new + 16 = s.word L.currentGetC) (hroom : L.getCStack ≤ new) :
    Stacked L (pushRecord L si new s) (files + 1) level 0 := by
  have heq := h.current_eq
  have hend := L.getCEnd_lt
  have hcur := L.currentGetC_lt
  have hlvl := L.includeLevel_lt
  have hcapart := L.currentGetC_apart
  have hlapart := L.includeLevel_apart
  have happart := L.levels_apart
  have hmax : maxGetc = 16 := rfl
  have hsize : getcFileSize = 16 := rfl
  rw [getCEnd_eq] at hend hcapart hlapart
  have hrecord := @pushRecord_within φ L si new s
  have hword : ∀ a < 0xffff, (a + 1 < L.getCStack ∨ L.getCStack + 256 ≤ a) →
      (pushRecord L si new s).word a = (s.write L.currentGetC (leBytes new 2)).word a :=
    fun a ha hapart =>
      word_congr (hrecord.byte fun i hi => by omega) (hrecord.byte fun i hi => by omega)
  have hpointer := hword L.currentGetC (by omega) hcapart
  rw [word_write_self, Nat.mod_eq_of_lt (by omega)] at hpointer
  apply h.opened
  · omega
  · rw [hpointer, hsize, hnew]
  · rw [hword L.includeLevel (by omega) hlapart]
    apply word_write_of_ne
    intro i hi
    rw [length_leBytes] at hi
    omega
  · rw [hpointer, pushRecord, ungetCnt, byte_write_self]
    rfl
  · intro a hlo hhi
    rw [getCEnd_eq] at hhi
    rw [hrecord a fun i hi => by omega]
    apply seg_write_of_ne
    intro i hi
    rw [length_leBytes] at hi
    omega

/-- A file is opened while nothing is pushed back. -/
theorem Stacked.after_openfd {si : UInt16} (h : Stacked L s files level 0) :
    ((openfd L env si s).1 = true → Stacked L (openfd L env si s).2 (files + 1) level 0) ∧
      ((openfd L env si s).1 = false → Stacked L (openfd L env si s).2 files level 0) := by
  have hstack := h.getCStack_le
  have hcurrent := word_lt s L.currentGetC
  have hnum := L.numBuf_eq
  have hsize : getcFileSize = 16 := rfl
  have hnsize : Var.numBuf.size = 16 := rfl
  -- `NumBuf` has room in front of the stack, so the difference is not below zero
  obtain ⟨new, hnew⟩ : ∃ new, new + 16 = s.word L.currentGetC :=
    ⟨s.word L.currentGetC - 16, by omega⟩
  rw [openfd_eq (show (s.word L.currentGetC + 0x10000 - getcFileSize) % 0x10000 = new by omega)]
  split
  · exact ⟨nofun, fun _ => h.congr fun _ _ => rfl⟩
  · next hroom => exact ⟨fun _ => h.after_pushRecord hnew (not_lt.mp hroom), nofun⟩

/-- The stack has one more file behind an open that succeeds, and the same ones behind one that
fails. -/
theorem Stacked.after_coreOpen {di : Nat} (h : Stacked L s files level 0) :
    ((coreOpen L env di s).1 = true → Stacked L (coreOpen L env di s).2 (files + 1) level 0) ∧
      ((coreOpen L env di s).1 = false → Stacked L (coreOpen L env di s).2 files level 0) := by
  unfold coreOpen
  split
  · exact ⟨nofun, fun _ => h.congr fun _ _ => rfl⟩
  · exact Stacked.after_openfd (h.congr fun _ _ => rfl)

/-- The file below has nothing pushed back. -/
theorem Stacked.after_close (h : Stacked L s (files + 1) level top) :
    Stacked L (close L env s) files level 0 := by
  have heq := h.current_eq
  have hstack := h.getCStack_le
  have hend := L.getCEnd_lt
  have hcur := L.currentGetC_lt
  have hlvl := L.includeLevel_lt
  have hcapart := L.currentGetC_apart
  have happart := L.levels_apart
  rw [getCEnd_eq] at hend hcapart
  have hword : (close L env s).word L.currentGetC = s.word L.currentGetC + getcFileSize := by
    have hsize : getcFileSize = 16 := rfl
    rw [close, word_write_self, Nat.mod_eq_of_lt (by omega)]
  have hrecord : ∀ i, record L (close L env s) i = record L s (i + 1) := fun i => by
    rw [record, record, hword, Nat.mul_succ]
    omega
  have hcnt : ∀ i < files, ungetCnt (close L env s) (record L s (i + 1)) = 0 := by
    intro i hi
    have hmem := h.cnt_mem (Nat.succ_lt_succ hi)
    rw [getCEnd_eq] at hmem
    rw [← h.below (i + 1) (Nat.succ_lt_succ hi) (Nat.succ_pos i), ungetCnt, ungetCnt, close]
    congr 1
    refine byte_write_of_ne fun j hj => ?_
    have hrec : record L s (i + 1) + gcUngetCnt = s.word L.currentGetC + 16 * (i + 1) + 6 := rfl
    rw [length_leBytes] at hj
    omega
  refine ⟨Nat.le_of_succ_le h.files_le, ?_, ?_, fun hfiles => ?_, fun i hi _ => ?_⟩
  · rw [hrecord, h.current]
  · rw [← h.level_eq, close]
    exact word_write_of_ne fun i hi => by rw [length_leBytes] at hi; omega
  · rw [hrecord, hcnt 0 hfiles]
  · rw [hrecord, hcnt i hi]

/-- `IncludeLevel` changes, and nothing else. -/
theorem Stacked.after_level (h : Stacked L s files level top) (n : Nat) :
    Stacked L (s.write L.includeLevel (leBytes n 2)) files (n % 0x10000) top := by
  have hstack := h.getCStack_le
  have hend := L.getCEnd_lt
  have hcur := L.currentGetC_lt
  have hlvl := L.includeLevel_lt
  have hlapart := L.includeLevel_apart
  have happart := L.levels_apart
  rw [getCEnd_eq] at hend hlapart
  have hword : (s.write L.includeLevel (leBytes n 2)).word L.currentGetC = s.word L.currentGetC :=
    word_write_of_ne fun i hi => by rw [length_leBytes] at hi; omega
  have hrecord : ∀ i, record L (s.write L.includeLevel (leBytes n 2)) i = record L s i := by
    intro i
    rw [record, record, hword]
  have hcnt : ∀ i < files, ungetCnt (s.write L.includeLevel (leBytes n 2)) (record L s i) =
      ungetCnt s (record L s i) := by
    intro i hi
    have hmem := h.cnt_mem hi
    have hrec : record L s i + gcUngetCnt = s.word L.currentGetC + 16 * i + 6 := rfl
    rw [getCEnd_eq] at hmem
    rw [ungetCnt, ungetCnt]
    congr 1
    refine byte_write_of_ne fun j hj => ?_
    rw [length_leBytes] at hj
    omega
  refine ⟨h.files_le, ?_, word_write_self, fun hfiles => ?_, fun i hi hpos => ?_⟩
  · rw [hrecord, h.current]
  · rw [hrecord, hcnt 0 hfiles]
    exact h.top_le hfiles
  · rw [hrecord, hcnt i hi]
    exact h.below i hi hpos

end Liigboot.Getc
