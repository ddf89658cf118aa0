import Liigboot.Config.Getline
import Liigboot.Getc.Overrun

/-!
# Reading a line of a file

`getline` stores a line through a pointer that nothing bounds, into the segment with the record that
it is read with. As long as no byte falls on what a read looks at, reads do not depend on what is
stored, the line is in the buffer in its normal form, and the file is behind it. A line that gets to
the record is lost.
-/

namespace Liigboot.Getc

open Liigboot.Config (currentLine inLine isBlank normalForm normalRest)

variable {φ : Type} {L : Layout} {env : Env L.toPlaces φ} {s s' : State φ} {file top di a : Nat}
  {al : UInt8} {input : List UInt8} {α : Type}

/-! ## What is read -/

/-- The record of the file that is read, with so many characters pushed back at most. -/
structure OnTop (L : Layout) (s : State φ) (file top : Nat) : Prop where
  current : s.word L.currentGetC = file
  getCStack_le : L.getCStack ≤ file
  le_getCEnd : file + getcFileSize ≤ L.getCEnd
  count_le : ungetCnt s file ≤ top

/-- What a read looks at when nothing is pushed back. -/
def InUse (L : Layout) (file a : Nat) : Prop :=
  file ≤ a ∧ a < file + gcUngetBuf ∨ a = L.currentGetC ∨ a = L.currentGetC + 1

instance : Decidable (InUse L file a) := inferInstanceAs (Decidable (_ ∨ _))

/-- What is left of the open file. -/
def Yields (L : Layout) (env : Env L.toPlaces φ) : List UInt8 → State φ → Prop
  | [], s => (getc L env s).1 = none
  | al :: rest, s => (getc L env s).1 = some al ∧ Yields L env rest (getc L env s).2

/-- The states are alike as far as a read can tell. -/
structure Alike (L : Layout) (file : Nat) (s s' : State φ) : Prop where
  seg : ∀ a, InUse L file a → s'.seg a = s.seg a
  realMode : s'.realMode = s.realMode
  fs : s'.fs = s.fs

/-- The current file of the stack is the one on top. -/
theorem Stacked.onTop {files level : Nat} (h : Stacked L s (files + 1) level top) :
    OnTop L s (s.word L.currentGetC) top := by
  have heq := h.current_eq
  have hend := getCEnd_eq L
  have hsize : getcFileSize = 16 := rfl
  exact ⟨rfl, h.getCStack_le, by omega, h.top_le (Nat.succ_pos _)⟩

/-- A larger count of characters that are pushed back is a weaker promise. -/
theorem OnTop.mono {top' : Nat} (h : OnTop L s file top) (htop : top ≤ top') :
    OnTop L s file top' :=
  { h with count_le := h.count_le.trans htop }

/-- The bytes in use are in the segment. -/
theorem OnTop.lt (h : OnTop L s file top) (ha : InUse L file a) : a < 0x10000 := by
  have hle := h.le_getCEnd
  have hend := L.getCEnd_lt
  have hcur := L.currentGetC_lt
  have hsize : getcFileSize = 16 := rfl
  have hbuf : gcUngetBuf = 7 := rfl
  unfold InUse at ha
  omega

/-- The fields are in use. -/
theorem inUse_field {k : Nat} (hk : k < gcUngetBuf) : InUse L file (file + k) :=
  .inl ⟨Nat.le_add_right _ _, Nat.add_lt_add_left hk _⟩

/-- The fields of the record are in the segment. -/
theorem OnTop.fields_le (h : OnTop L s file top) : file + gcUngetBuf ≤ 0x10000 :=
  h.lt (inUse_field (show 6 < gcUngetBuf by decide))

/-- States that are alike have the same bytes in use. -/
theorem Alike.byte (h : Alike L file s s') (hlt : a < 0x10000) (ha : InUse L file a) :
    s'.byte a = s.byte a :=
  byte_congr hlt (h.seg a ha)

/-- They have the same words in the fields of the record. -/
theorem Alike.word (h : Alike L file s s') (hfields : file + gcUngetBuf ≤ 0x10000) {k : Nat}
    (hk : k + 1 < gcUngetBuf) : s'.word (file + k) = s.word (file + k) :=
  word_congr (h.byte (by omega) (inUse_field (by omega))) (h.byte (by omega) (inUse_field hk))

/-- The same stores leave them alike. -/
theorem Alike.write (h : Alike L file s s') (a : Nat) (bs : List UInt8) :
    Alike L file (s.write a bs) (s'.write a bs) :=
  ⟨fun c hc => putAll_congr (h.seg c hc), h.realMode, h.fs⟩

/-- They have the same current file. -/
theorem Alike.currentGetC (h : Alike L file s s') :
    s'.word L.currentGetC = s.word L.currentGetC := by
  have hcur := L.currentGetC_lt
  exact word_congr (h.byte (by omega) (.inr (.inl rfl))) (h.byte hcur (.inr (.inr rfl)))

/-- A file that is on top in the one is on top in the other. -/
theorem OnTop.congr (h : OnTop L s file top) (halike : Alike L file s s') :
    OnTop L s' file top := by
  refine ⟨halike.currentGetC.trans h.current, h.getCStack_le, h.le_getCEnd, ?_⟩
  have hlt := h.lt (inUse_field (show gcUngetCnt < gcUngetBuf by decide))
  rw [ungetCnt, halike.byte hlt (inUse_field (by decide))]
  exact h.count_le

/-- The stack and `CurrentGetC` are apart. -/
theorem OnTop.apart (h : OnTop L s file top) :
    L.currentGetC + 1 < file ∨ file + getcFileSize ≤ L.currentGetC := by
  have hle := h.le_getCEnd
  have hge := h.getCStack_le
  have hapart := L.currentGetC_apart
  omega

/-- Changes of the fields in front of the count, and of the count itself to zero. -/
theorem OnTop.of_within (h : OnTop L s file top) (hown : Within file 0 gcUngetBuf s s')
    (hcount : ungetCnt s' file = 0) : OnTop L s' file 0 := by
  have hapart := h.apart
  have hle := h.le_getCEnd
  have hend := L.getCEnd_lt
  have hcur := L.currentGetC_lt
  have hsize : getcFileSize = 16 := rfl
  have hbuf : gcUngetBuf = 7 := rfl
  have hkeep : ∀ a < 0x10000, (a < file ∨ file + getcFileSize ≤ a) → s'.byte a = s.byte a :=
    fun a ha hout => byte_congr ha (hown a fun i hi => by omega)
  refine ⟨?_, h.getCStack_le, h.le_getCEnd, hcount.le⟩
  rw [← h.current]
  exact word_congr (hkeep _ (by omega) (by omega)) (hkeep _ hcur (by omega))

/-- A read leaves nothing pushed back, and changes nothing but the fields of the record. -/
theorem OnTop.getc (h : OnTop L s file 1) :
    OnTop L (getc L env s).2 file 0 ∧ Within file 0 gcUngetBuf s (getc L env s).2 := by
  have hle := h.le_getCEnd
  have hend := L.getCEnd_lt
  have hsize : getcFileSize = 16 := rfl
  have hcur := h.current
  rcases Nat.le_one_iff_eq_zero_or_eq_one.mp h.count_le with hcnt | hcnt
  · have hwithin := @getc_within φ L env s (by rwa [record, Nat.mul_zero, Nat.add_zero, hcur])
    rw [hcur] at hwithin
    have hown := hwithin.mono (Nat.le_refl 0) (show 0 + 6 ≤ 0 + gcUngetBuf by decide)
    refine ⟨h.of_within hown ?_, hown⟩
    rw [ungetCnt, hwithin.byte, ← hcnt, ungetCnt]
    intro i hi
    have hfield : gcUngetCnt = 6 := rfl
    omega
  · have hget := @getc_unget φ L env s (by rwa [record, Nat.mul_zero, Nat.add_zero, hcur])
    rw [record, Nat.mul_zero, Nat.add_zero, hcur] at hget
    rw [hget]
    have hown : Within file 0 gcUngetBuf s (s.write (file + gcUngetCnt) [0]) :=
      Within.write (Nat.zero_le _) (by decide)
    refine ⟨h.of_within hown ?_, hown⟩
    rw [ungetCnt, byte_write_self]
    rfl

/-- What is not in use stays as it is. -/
theorem OnTop.seg_getc (h : OnTop L s file 1) (ha : ¬ InUse L file a) :
    (Getc.getc L env s).2.seg a = s.seg a := by
  apply h.getc.2
  rintro i hi rfl
  have hlt := h.lt (inUse_field hi)
  rw [Nat.add_zero, Nat.mod_eq_of_lt hlt] at ha
  exact ha (inUse_field hi)

/-! ## Reads of states that are alike -/

/-- They take the same byte from the buffer, and stay alike. -/
theorem Alike.gotData (h : Alike L file s s') (hfields : file + gcUngetBuf ≤ 0x10000) :
    (gotData file s').1 = (gotData file s).1 ∧
      Alike L file (gotData file s).2 (gotData file s').2 := by
  have hleft := h.write (file + gcBufbytes) (leBytes (s.word (file + gcBufbytes) + 0xffff) 2)
  unfold Getc.gotData
  dsimp only
  rw [h.word hfields (show gcBufbytes + 1 < gcUngetBuf by decide),
    hleft.word hfields (show gcBufdata + 1 < gcUngetBuf by decide)]
  split
  · exact ⟨rfl, hleft⟩
  · exact ⟨congrArg some (congrFun hleft.realMode _), hleft.write _ _⟩

/-- They take the same byte of the file, and stay alike. -/
theorem Alike.getData (h : Alike L file s s') (hfields : file + gcUngetBuf ≤ 0x10000) :
    (getData L env file s').1 = (getData L env file s).1 ∧
      Alike L file (getData L env file s).2 (getData L env file s').2 := by
  have hdata := h.write (file + gcBufdata)
    (leBytes ((file + 0x10000 - L.getCStack) * 2 ^ 8 % 0x10000) 2)
  have hbytes := hdata.write (file + gcBufbytes) (leBytes ((s.write (file + gcBufdata)
    (leBytes ((file + 0x10000 - L.getCStack) * 2 ^ 8 % 0x10000) 2)).word (file + gcFile)) 2)
  unfold Getc.getData
  dsimp only
  rw [hdata.word hfields (show gcFile + 1 < gcUngetBuf by decide)]
  split
  · exact ⟨rfl, hbytes⟩
  · rw [hbytes.fs]
    exact ⟨rfl, ((hbytes.write _ _).write _ _).seg,
      congrArg (fun mem : Memory => mem.write _ _) hbytes.realMode, rfl⟩

/-- With nothing pushed back, a read depends on nothing else. -/
theorem Alike.getc (h : Alike L file s s') (hs : OnTop L s file 0) :
    (getc L env s').1 = (getc L env s).1 ∧
      Alike L file (getc L env s).2 (getc L env s').2 := by
  have hfields := hs.fields_le
  have hcnt : s.byte (file + gcUngetCnt) = 0 := UInt8.toNat_inj.mp (Nat.le_zero.mp hs.count_le)
  have hcnt' : s'.byte (file + gcUngetCnt) = 0 :=
    (h.byte (hs.lt (inUse_field (by decide))) (inUse_field (by decide))).trans hcnt
  obtain ⟨hchar, hgot⟩ := h.gotData hfields
  unfold Getc.getc
  dsimp only
  rw [h.currentGetC, hs.current, hcnt, hcnt', if_neg (not_not.mpr rfl), if_neg (not_not.mpr rfl)]
  generalize Getc.gotData file s = r at hchar hgot ⊢
  generalize Getc.gotData file s' = r' at hchar hgot ⊢
  obtain ⟨c, t⟩ := r
  obtain ⟨c', t'⟩ := r'
  obtain rfl : c' = c := hchar
  cases c' with
  | some al => exact ⟨rfl, hgot⟩
  | none =>
    obtain ⟨hmore, hgot⟩ := @Alike.getData φ L env t t' file hgot hfields
    dsimp only
    generalize Getc.getData L env file t = r at hmore hgot ⊢
    generalize Getc.getData L env file t' = r' at hmore hgot ⊢
    obtain ⟨more, u⟩ := r
    obtain ⟨more', u'⟩ := r'
    obtain rfl : more' = more := hmore
    cases more' with
    | true => exact hgot.gotData hfields
    | false => exact ⟨rfl, hgot⟩

/-- They yield the same input. -/
theorem Yields.congr (h : Yields L env input s) (hs : OnTop L s file 0)
    (halike : Alike L file s s') : Yields L env input s' := by
  induction input generalizing s s' with
  | nil => exact (halike.getc hs).1.trans h
  | cons al input ih =>
    obtain ⟨hchar, hnext⟩ := @Alike.getc φ L env s s' file halike hs
    exact ⟨hchar.trans h.1, ih h.2 (hs.mono (Nat.zero_le 1)).getc.1 hnext⟩

/-- A character that is pushed back is read next, and leaves the file where it was. -/
theorem OnTop.ungetc (h : OnTop L s file 0) : OnTop L (ungetc L al s) file 1 ∧
    ∃ t, Getc.getc L env (Getc.ungetc L al s) = (some al, t) ∧ Alike L file s t ∧
      Within file 0 getcFileSize s t := by
  have hcur := h.current
  have hle := h.le_getCEnd
  have hend := L.getCEnd_lt
  have hapart := h.apart
  have hcurlt := L.currentGetC_lt
  have hsize : getcFileSize = 16 := rfl
  have hcntf : gcUngetCnt = 6 := rfl
  have hbuf : gcUngetBuf = 7 := rfl
  have hrecord : ∀ t : State φ, record L t 0 = t.word L.currentGetC := fun _ => rfl
  have hcnt : ungetCnt s (record L s 0) = 0 := by
    rw [hrecord, hcur]
    exact Nat.le_zero.mp h.count_le
  have hwithin := @ungetc_within φ L s al hcnt
  have hpushed := @ungetc_eq φ L s al hcnt
  obtain ⟨hone, hchar⟩ := @ungetc_pushed φ L s al hcnt
  rw [hrecord, hcur] at hone hchar
  rw [hcur] at hwithin hpushed
  have hkeep : ∀ a < 0x10000, (a < file ∨ file + getcFileSize ≤ a) →
      (Getc.ungetc L al s).byte a = s.byte a :=
    fun a ha hout => byte_congr ha (hwithin a fun i hi => by omega)
  have hcurrent : (Getc.ungetc L al s).word L.currentGetC = file := by
    rw [← hcur]
    exact word_congr (hkeep _ (by omega) (by omega)) (hkeep _ hcurlt (by omega))
  have hget := @getc_unget φ L env (Getc.ungetc L al s) (by rwa [hrecord, hcurrent])
  rw [hrecord, hcurrent, hchar] at hget
  refine ⟨⟨hcurrent, h.getCStack_le, h.le_getCEnd, hone.le⟩, _, hget, ?_,
    hwithin.trans (Within.write (Nat.zero_le _) (by decide))⟩
  rw [hpushed]
  refine ⟨fun a ha => ?_, rfl, rfl⟩
  have hlt := h.lt ha
  by_cases heq : a = file + gcUngetCnt
  · have hzero : s.byte (file + gcUngetCnt) = 0 :=
      UInt8.toNat_inj.mp (Nat.le_zero.mp h.count_le)
    have hstored := @byte_write_self φ
      ((s.write (file + gcUngetBuf) [al]).write (file + gcUngetCnt) [1]) (file + gcUngetCnt) 0
    rw [State.byte, ← heq, Nat.mod_eq_of_lt hlt] at hzero hstored
    rw [heq] at hzero hstored ⊢
    rw [hstored, hzero]
  · unfold InUse at ha
    have hne : ∀ k, k = gcUngetCnt ∨ k = gcUngetBuf → ∀ b, ∀ t : State φ,
        (t.write (file + k) [b]).seg a = t.seg a := by
      intro k hk b t
      apply seg_write_of_ne
      intro i hi
      obtain rfl := Nat.lt_one_iff.mp hi
      omega
    rw [hne _ (.inl rfl), hne _ (.inl rfl), hne _ (.inr rfl)]

/-! ## What is stored -/

/-- How a line ends, with the carry flag: with a line feed or an end-of-file character, which is
read, or with the file. -/
inductive EndsLine (L : Layout) (env : Env L.toPlaces φ) : List UInt8 → Bool → State φ → Prop
  | lineFeed {rest : List UInt8} {s : State φ} (h : Yields L env rest s) :
    EndsLine L env (10 :: rest) false s
  | endOfFile {rest : List UInt8} {s : State φ} (h : Yields L env rest s) :
    EndsLine L env (26 :: rest) true s
  | file {s : State φ} : EndsLine L env [] true s

/-- `getline` has stored the normal form of the line, and is behind it. -/
structure LineRead (L : Layout) (env : Env L.toPlaces φ) (input : List UInt8) (di : Nat)
    (l : Parser.Line) (s : State φ) : Prop where
  di_eq : l.di = di + (normalForm (currentLine input)).length
  stored : ∀ i al, (normalForm (currentLine input))[i]? = some al →
    s.seg ((di + i) % 0x10000) = al
  ending : ∃ behind, input = currentLine input ++ behind ∧ EndsLine L env behind l.cf s

/-- Some bytes were stored, and the line has ended. Nothing else has changed but the record of the
file. -/
structure Fills (L : Layout) (env : Env L.toPlaces φ) (file di : Nat) (bytes behind : List UInt8)
    (s : State φ) (l : Parser.Line) (t : State φ) : Prop where
  di_eq : l.di = di + bytes.length
  seg : ∀ a, ¬ InUse L file a → t.seg a = (s.write di bytes).seg a
  ending : EndsLine L env behind l.cf t

variable {bytes behind : List UInt8} {l : Parser.Line} {t : State φ} {cf : Bool}

/-- They end the line in the same way. -/
theorem EndsLine.congr (h : EndsLine L env behind cf s) (hs : OnTop L s file 0)
    (halike : Alike L file s s') : EndsLine L env behind cf s' := by
  cases h with
  | lineFeed h => exact .lineFeed (h.congr hs halike)
  | endOfFile h => exact .endOfFile (h.congr hs halike)
  | file => exact .file

/-- A line with one more character in front is filled from the place behind it on. -/
theorem Fills.cons (h : Fills L env file (di + 1) bytes behind (s.write di [al]) l t) :
    Fills L env file di (al :: bytes) behind s l t := by
  refine ⟨?_, h.seg, h.ending⟩
  rw [h.di_eq, List.length_cons]
  omega

/-- A program that is done has ended in its state. -/
theorem ends_pure {Q : α → State φ → Prop} {x : α} :
    (pure x : Parser α).Ends (exec L env) Q s ↔ Q x s :=
  Program.ends_ret

/-- A program that stores first ends as what follows does behind the store. -/
theorem ends_stosb {Q : α → State φ → Prop} {f : Unit → Parser α} :
    (Parser.stosb di bytes >>= f).Ends (exec L env) Q s ↔
      (f ()).Ends (exec L env) Q (s.write di bytes) :=
  Iff.rfl

/-- A program that reads first ends as what follows does with the character. -/
theorem ends_getc {Q : α → State φ → Prop} {f : Option UInt8 → Parser α} {c : Option UInt8}
    (hget : (getc L env s).1 = c) :
    (Parser.getc >>= f).Ends (exec L env) Q s ↔
      (f c).Ends (exec L env) Q (getc L env s).2 := by
  subst hget
  exact Iff.rfl

/-- This is the line of a configuration, as the keywords take it. -/
theorem LineRead.eq_config (h : LineRead L env input di l s) :
    l.di = di + (Config.getline input).stored.length ∧ l.cf = (Config.getline input).eof ∧
      ∀ i al, (Config.getline input).stored[i]? = some al → s.seg ((di + i) % 0x10000) = al := by
  obtain ⟨behind, hbehind, hending⟩ := h.ending
  have hdrop : input.dropWhile inLine = behind := by
    apply (List.append_right_inj (currentLine input)).mp
    rw [← hbehind]
    exact List.takeWhile_append_dropWhile
  rw [Config.getline_eq, hdrop]
  refine ⟨h.di_eq, ?_, h.stored⟩
  generalize l.cf = cf at hending ⊢
  cases hending with
  | lineFeed => rfl
  | endOfFile => rfl
  | file => rfl

variable {s s' : State (List UInt8)} {left rest k n fuel : Nat} {blank : Bool}

/-- The file that is read is on top. -/
theorem Reading.onTop (h : Reading s) : OnTop linked s firstRecord 0 :=
  ⟨h.current, by decide, by decide, by rw [ungetCnt, h.count]; rfl⟩

/-- The byte of `KbdMap` that is taken for a character that was pushed back. -/
def lineKey : Nat := linked.addr .kbdMap + 0xbb

/-- Reading leaves the byte of the key behind the buffer. -/
theorem Reading.lineKey_getc (h : Reading s) (hkey : s.seg lineKey = 10) :
    (getc linked (oneFile _) s).2.seg lineKey = 10 :=
  ((h.onTop.mono (Nat.zero_le 1)).seg_getc (by decide)).trans hkey

/-- So do the stores in front of it. -/
theorem lineKey_stosb (hdi : di < lineKey) (hkey : s.seg lineKey = 10) :
    (s.write di [al]).seg lineKey = 10 := by
  have hlt : lineKey = 0x3d3b := rfl
  rw [← hkey]
  apply seg_write_of_ne
  intro i hi
  obtain rfl := Nat.lt_one_iff.mp hi
  omega

/-- A character of the word. -/
theorem ends_filler {Q : Parser.Line → State (List UInt8) → Prop}
    (hget : getc linked (oneFile _) s = (some filler, s')) :
    (Program.loop Parser.fillStep (fuel + 1) ⟨di, blank, false⟩).Ends (exec linked (oneFile _)) Q
        s ↔
      (Program.loop Parser.fillStep fuel ⟨di + 1, false, false⟩).Ends (exec linked (oneFile _)) Q
        (s'.write di [filler]) := by
  rw [Program.ends_loop_succ, Parser.fillStep, ends_getc (congrArg Prod.fst hget), hget]
  dsimp only
  rw [if_pos (by decide), ends_stosb, ends_pure]
  exact Iff.rfl

/-- Behind the count, a byte of `KbdMap` ends the line. -/
theorem Over.getc_lost (h : Over s n) (hkey : s.seg lineKey = 10) :
    (Getc.getc linked (oneFile _) (s.write (firstRecord + gcUngetCnt) [filler])).1 = some 10 := by
  have hword : (s.write (firstRecord + gcUngetCnt) [filler]).word linked.currentGetC =
      firstRecord :=
    (word_write_byte s (by decide) (by decide) (.inr (by decide))).trans h.current
  unfold Getc.getc
  dsimp only
  rw [hword, byte_write_self, if_pos (by decide)]
  exact congrArg some (lineKey_stosb (by decide) hkey)

/-- From the record on it takes a few characters to get to the count. -/
theorem Over.ends (h : Over s (n + 2)) (hn : n ≤ 6) (hk : k + n = gcUngetCnt)
    (hkey : s.seg lineKey = 10) (hfuel : n + 1 < fuel) :
    (Program.loop Parser.fillStep fuel ⟨firstRecord + k, false, false⟩).Ends
      (exec linked (oneFile _)) (fun l _ => l.cf = false) s := by
  have hrecord : firstRecord = 0x3c40 := rfl
  have hfield : gcUngetCnt = 6 := rfl
  have hat : lineKey = 0x3d3b := rfl
  induction n generalizing s k fuel with
  | zero =>
    obtain rfl : k = gcUngetCnt := hk
    obtain ⟨fuel, rfl⟩ := Nat.exists_eq_add_of_le' hfuel
    obtain ⟨hget, hover⟩ := h.getc
    have hkey' := h.lineKey_getc hkey
    rw [hget] at hkey'
    rw [ends_filler hget, Program.ends_loop_succ, Parser.fillStep,
      ends_getc (hover.getc_lost hkey')]
    dsimp only
    rw [if_neg (by decide), if_pos rfl, ends_pure]
    rfl
  | succ n ih =>
    obtain ⟨fuel, rfl⟩ := Nat.exists_eq_succ_of_ne_zero (Nat.ne_zero_of_lt hfuel)
    obtain ⟨hget, hover⟩ := h.getc
    have hkey' := h.lineKey_getc hkey
    rw [hget] at hkey'
    have hstore : Over ((advanced s).write (firstRecord + k) [filler]) (n + 2) :=
      hover.stosb (by omega) (by omega)
    have hnext : k + 1 + n = gcUngetCnt := by omega
    exact (ends_filler hget).mpr
      (ih hstore (by omega) hnext (lineKey_stosb (by omega) hkey') (by omega))

/-- In front of the record the file is read on. -/
theorem InFront.ends (h : InFront s left rest) (hdi : di + n = firstRecord)
    (hleft : left + rest = n + 0x3c0) (hkey : s.seg lineKey = 10) (hfuel : n + 7 < fuel) :
    (Program.loop Parser.fillStep fuel ⟨di, false, false⟩).Ends (exec linked (oneFile _))
      (fun l _ => l.cf = false) s := by
  have hrecord : firstRecord = 0x3c40 := rfl
  have hat : lineKey = 0x3d3b := rfl
  induction n generalizing s di left rest fuel with
  | zero =>
    obtain rfl : di = firstRecord := hdi
    have hover : Over s 8 := h.over (by omega)
    exact hover.ends le_rfl rfl hkey (by omega)
  | succ n ih =>
    obtain ⟨fuel, rfl⟩ := Nat.exists_eq_succ_of_ne_zero (Nat.ne_zero_of_lt hfuel)
    obtain ⟨s', left', rest', hget, hfront, hcount⟩ := h.getc (by omega)
    have hkey' := h.lineKey_getc hkey
    rw [hget] at hkey'
    exact (ends_filler hget).mpr (ih (hfront.stosb (by omega)) (by omega) (by omega)
      (lineKey_stosb (by omega) hkey') (by omega))

end Liigboot.Getc
