import Liigboot.Console.Message
import Mathlib.Data.List.Induction

/-!
# Message files on a page

A message file of text, line ends and colors is written on a page without a lower end, from where
the cursor is. The screen shows the last rows of the page. No text is written over, and the serial
port gets the same lines.
-/

namespace Liigboot.Message

open Liigboot.Boot

/-! ## The page -/

/-- A page, with its first row on the screen, and where the next character goes. -/
structure Page where
  cell : Nat → Nat → Cell
  top : Nat
  row : Nat
  col : Nat

/-- A new row, and the page goes up when it is below the last row of the screen. -/
def Page.newline (rows : Nat) (p : Page) : Page :=
  { p with row := p.row + 1, col := 0, top := max p.top (p.row + 1 - rows) }

/-- A character, and a new row behind the last column. -/
def Page.put (rows cols : Nat) (p : Page) (c : Cell) : Page :=
  let p := { p with cell := fun r k => if r = p.row ∧ k = p.col then c else p.cell r k }
  if p.col < cols then { p with col := p.col + 1 } else p.newline rows

/-- A byte that is text. -/
def Plain (c : UInt8) : Prop :=
  c ∉ [0x07, 0x0A, 0x0C, 0x0D, 0x0F] ∧ ¬(0x10 ≤ c ∧ c ≤ 0x1A)

instance (c : UInt8) : Decidable (Plain c) := inferInstanceAs (Decidable (_ ∧ _))

/-- A hexadecimal digit. -/
structure Digit where
  char : UInt8
  value : UInt8
  spells : unhexchar char = some value

/-- The parts of a message file. -/
inductive Token
  | char (c : UInt8) (plain : Plain c)
  | ret
  | newline
  | color (bg fg : Digit)

def Token.spell : Token → List UInt8
  | .char c _ => [c]
  | .ret => [0x0D]
  | .newline => [0x0A]
  | .color bg fg => [0x0F, bg.char, fg.char]

/-- What is written to the serial port. -/
def Token.serial : Token → List UInt8
  | .char c _ => [c]
  | .ret => []
  | .newline => [0x0D, 0x0A]
  | .color _ _ => []

/-- A part is written with the attribute, or changes it. CR is ignored. -/
def Token.write (rows cols : Nat) : Page × UInt8 → Token → Page × UInt8
  | (p, attr), .char c _ => (p.put rows cols ⟨c, attr⟩, attr)
  | page, .ret => page
  | (p, attr), .newline => (p.newline rows, attr)
  | (p, _), .color bg fg => (p, bg.value <<< 4 ||| fg.value)

def writeTokens (rows cols : Nat) : Page × UInt8 → List Token → Page × UInt8 :=
  List.foldl (Token.write rows cols)

/-- The page of which a screen is the first part. -/
def Display.page (d : Display) : Page where
  cell r k := if r ≤ d.vidRows.toNat then d.bios.cell r k else ⟨0x20, d.scrollAttribute⟩
  top := 0
  row := d.bios.row.toNat
  col := d.bios.col.toNat

/-- The screen shows the rows of a page from its top on. -/
structure Shows (rows cols : Nat) (p : Page) (d : Display) : Prop where
  rows_eq : d.vidRows.toNat = rows
  cols_eq : d.vidCols.toNat = cols
  row_eq : p.row = p.top + d.cursorRow.toNat
  col_eq : p.col = d.cursorCol.toNat
  cell_eq : ∀ r ≤ rows, ∀ k ≤ cols, d.bios.cell r k = p.cell (p.top + r) k
  blank : ∀ r, p.top + rows < r → ∀ k, p.cell r k = ⟨0x20, d.scrollAttribute⟩
  onScreen : d.OnScreen

variable {video : Video} {rows cols : Nat} {p : Page} {d : Display} {s : State} {attr : UInt8}
  {c : Cell}

/-- The cursor is on the screen. -/
theorem Shows.row_le (h : Shows rows cols p d) : p.row ≤ p.top + rows := by
  have hle := UInt8.le_iff_toNat_le.mp h.onScreen.row_le
  rw [h.row_eq, ← h.rows_eq]
  omega

/-- It is in one of its columns. -/
theorem Shows.col_le (h : Shows rows cols p d) : p.col ≤ cols := by
  rw [h.col_eq, ← h.cols_eq]
  exact UInt8.le_iff_toNat_le.mp h.onScreen.col_le

theorem toNat_add_one {v : UInt8} (h : v.toNat < 255) : (v + 1).toNat = v.toNat + 1 := by
  rw [UInt8.toNat_add, UInt8.toNat_one, Nat.mod_eq_of_lt (by omega)]

/-! ## Steps on the screen -/

/-- A new row of the page is a new row on the screen, which scrolls at the bottom. -/
theorem Shows.newline (h : Shows rows cols p d) (hrows : rows < 255) :
    Shows rows cols (p.newline rows) d.lineWrap := by
  have hrow := h.row_eq
  have hle := h.row_le
  have hrows_eq := h.rows_eq
  have hnext : (d.cursorRow + 1).toNat = d.cursorRow.toNat + 1 := toNat_add_one (by omega)
  unfold Display.lineWrap Page.newline
  by_cases hlast : d.vidRows < d.cursorRow + 1
  · have hlast' := UInt8.lt_iff_toNat_lt.mp hlast
    have htop : max p.top (p.row + 1 - rows) = p.top + 1 := by omega
    simp only [if_pos hlast]
    rw [htop]
    refine ⟨h.rows_eq, h.cols_eq, ?_, rfl, ?_, ?_, ?_⟩
    · change p.row + 1 = p.top + 1 + d.vidRows.toNat
      omega
    · intro r hr k hk
      change (d.bios.scrollUp 1 d.scrollAttribute d.vidRows d.vidCols).cell r k = _
      rw [Bios.scrollUp]
      simp only
      rw [if_pos ⟨by omega, by rw [h.cols_eq]; exact hk⟩]
      by_cases hbottom : d.vidRows.toNat < r + 1
      · rw [if_pos (.inr hbottom), h.blank _ (by omega)]
      · rw [if_neg (by omega), h.cell_eq _ (by omega) k hk]
        congr 1
        omega
    · intro r hr k
      change p.top + 1 + rows < r at hr
      exact h.blank r (by omega) k
    · exact Display.gotoxy_onScreen (UInt8.le_refl _) UInt8.zero_le
  · have hlast' := UInt8.lt_iff_toNat_lt.not.mp hlast
    have htop : max p.top (p.row + 1 - rows) = p.top := by omega
    simp only [if_neg hlast]
    rw [htop]
    refine ⟨h.rows_eq, h.cols_eq, ?_, rfl, h.cell_eq, h.blank, ?_⟩
    · change p.row + 1 = p.top + (d.cursorRow + 1).toNat
      omega
    · exact Display.gotoxy_onScreen (UInt8.not_lt.mp hlast) UInt8.zero_le

/-- A character is written at the cursor. -/
theorem Shows.write (h : Shows rows cols p d) (c : Cell) :
    Shows rows cols
      { p with cell := fun r k => if r = p.row ∧ k = p.col then c else p.cell r k }
      { d with bios := d.bios.writeCell c } := by
  have hle := h.row_le
  have hrow := h.row_eq
  refine ⟨h.rows_eq, h.cols_eq, h.row_eq, h.col_eq, ?_, ?_, ?_⟩
  · intro r hr k hk
    change (if r = d.bios.row.toNat ∧ k = d.bios.col.toNat then c else d.bios.cell r k) =
      if p.top + r = p.row ∧ k = p.col then c else p.cell (p.top + r) k
    have hsame : r = d.bios.row.toNat ∧ k = d.bios.col.toNat ↔ p.top + r = p.row ∧ k = p.col := by
      rw [h.onScreen.row_eq, h.onScreen.col_eq, h.row_eq, h.col_eq, Nat.add_right_inj]
    rw [h.cell_eq r hr k hk]
    simp only [hsame]
  · intro r hr k
    change (if r = p.row ∧ k = p.col then c else p.cell r k) = _
    rw [if_neg (by change p.top + rows < r at hr; omega)]
    exact h.blank r hr k
  · exact ⟨h.onScreen.row_eq, h.onScreen.col_eq, h.onScreen.row_le, h.onScreen.col_le⟩

/-- The interpreter between two parts, with all modes of display. -/
structure Ready (rows cols : Nat) (page : Page × UInt8) (s : State) : Prop where
  next : s.nextCharJump = .putchar
  mask : s.displayMask = 0x07
  attr : s.textAttribute = page.2
  shows : Shows rows cols page.1 s.display

/-! ## Parts of a file -/

/-- In either mode, text is displayed with the mask for all modes. -/
theorem mask_ne_zero (usingVga : UInt8) : (0x07 : UInt8) &&& ((usingVga &&& 1) + 1) ≠ 0 := by
  have hall : ∀ n : Fin 256, (0x07 : UInt8) &&& ((UInt8.ofNat n &&& 1) + 1) ≠ 0 := by
    decide +kernel
  have hn := hall ⟨usingVga.toNat, usingVga.toNat_lt⟩
  rwa [UInt8.ofNat_toNat] at hn

/-- In the text mode all bytes go to the serial port. -/
theorem writeSerial_of_mask (hmask : s.displayMask = 0x07) (bytes : List UInt8) :
    s.writeSerial bytes = { s with serial := s.serial ++ bytes } := by
  rw [State.writeSerial, hmask, if_neg (by decide)]

/-- In the text mode a wrap goes to the screen. -/
theorem lineWrap_of_mask {cl : UInt8} (hmask : s.displayMask = 0x07)
    (hcl : (0x07 : UInt8) &&& cl ≠ 0) :
    lineWrap cl s = { s with display := s.display.lineWrap } := by
  rw [lineWrap, hmask, if_neg hcl]

/-- A plain character is displayed. -/
theorem putchar_plain {cl al : UInt8} (h : Plain al) :
    putchar video true cl s al = normal true cl s al := by
  obtain ⟨hcontrol, hmode⟩ := h
  simp only [List.mem_cons, List.not_mem_nil, or_false, not_or] at hcontrol
  have hne : ∀ c : UInt8, 0x10 ≤ c → c ≤ 0x1A → al ≠ c := by
    rintro c hge hle rfl
    exact hmode ⟨hge, hle⟩
  unfold putchar
  rw [if_neg hcontrol.2.2.2.2, if_neg hcontrol.2.2.2.1, if_neg hcontrol.2.1,
    if_neg hcontrol.2.2.1, if_neg hcontrol.1, if_neg (hne 0x19 (by decide) (by decide)),
    if_neg (hne 0x18 (by decide) (by decide)), if_neg]
  rintro ⟨hlt, hge⟩
  exact hmode ⟨hge, UInt8.le_trans (UInt8.le_of_lt hlt) (by decide)⟩

/-- A plain character comes to its place on the page, on the screen and on the port. -/
theorem Ready.char (h : Ready rows cols (p, attr) s) (hrows : rows < 255) (hcols : cols < 255)
    {al : UInt8} (hal : Plain al) :
    Ready rows cols (p.put rows cols ⟨al, attr⟩, attr) (nextChar video true s al) ∧
      (nextChar video true s al).serial = s.serial ++ [al] := by
  have hshows := h.shows.write ⟨al, attr⟩
  have hcol : (s.display.cursorCol + 1).toNat = s.display.cursorCol.toNat + 1 :=
    toNat_add_one (by have := h.shows.col_le; rw [← h.shows.col_eq]; dsimp at this ⊢; omega)
  have hattr : s.textAttribute = attr := h.attr
  unfold nextChar
  simp only [h.next]
  rw [putchar_plain hal, normal, writeSerial_of_mask h.mask]
  simp only [h.mask, if_neg (mask_ne_zero _), if_true, hattr]
  unfold Page.put
  simp only
  by_cases hlast : s.display.vidCols < s.display.cursorCol + 1
  · have hlast' := UInt8.lt_iff_toNat_lt.mp hlast
    rw [if_pos hlast, if_neg (by rw [h.shows.col_eq, ← h.shows.cols_eq]; omega)]
    have hwrap : (0x07 : UInt8) &&& 1 ≠ 0 := by decide
    simp only [lineWrap, if_neg hwrap]
    exact ⟨⟨h.next, rfl, rfl, hshows.newline hrows⟩, trivial⟩
  · have hlast' := UInt8.lt_iff_toNat_lt.not.mp hlast
    rw [if_neg hlast, if_pos (by rw [h.shows.col_eq, ← h.shows.cols_eq]; omega)]
    refine ⟨⟨h.next, rfl, rfl, ?_⟩, rfl⟩
    refine ⟨h.shows.rows_eq, h.shows.cols_eq, h.shows.row_eq, ?_, hshows.cell_eq, hshows.blank, ?_⟩
    · change p.col + 1 = (s.display.cursorCol + 1).toNat
      rw [hcol, h.shows.col_eq]
    · exact Display.gotoxy_onScreen h.shows.onScreen.row_le (UInt8.not_lt.mp hlast)

/-- CR is ignored. -/
theorem nextChar_ret (h : Ready rows cols (p, attr) s) : nextChar video true s 0x0D = s := by
  unfold nextChar
  simp only [h.next]
  rfl

/-- LF starts a new row on the page and on the screen; the port gets CR and LF. -/
theorem Ready.newline (h : Ready rows cols (p, attr) s) (hrows : rows < 255) :
    Ready rows cols (p.newline rows, attr) (nextChar video true s 0x0A) ∧
      (nextChar video true s 0x0A).serial = s.serial ++ [0x0D, 0x0A] := by
  have hput : nextChar video true s 0x0A =
      Message.newline ((s.display.usingVga &&& 1) + 1) s := by
    unfold nextChar
    simp only [h.next]
    rfl
  have hline : nextChar video true s 0x0A =
      { s with serial := s.serial ++ [0x0D, 0x0A], display := s.display.lineWrap } := by
    rw [hput, Message.newline, writeSerial_of_mask h.mask]
    exact lineWrap_of_mask h.mask (mask_ne_zero _)
  rw [hline]
  exact ⟨⟨h.next, h.mask, h.attr, h.shows.newline hrows⟩, rfl⟩

/-- The two digits of a color code set the attribute. -/
theorem Ready.color (h : Ready rows cols (p, attr) s) (bg fg : Digit) :
    Ready rows cols (p, bg.value <<< 4 ||| fg.value)
        (nextChar video true (nextChar video true (nextChar video true s 0x0F) bg.char) fg.char) ∧
      (nextChar video true (nextChar video true (nextChar video true s 0x0F) bg.char)
        fg.char).serial = s.serial := by
  have hcode : nextChar video true s 0x0F = { s with nextCharJump := .setbg } := by
    unfold nextChar
    simp only [h.next]
    rfl
  have hbg : nextChar video true { s with nextCharJump := .setbg } bg.char =
      { s with textAttribute := bg.value <<< 4, nextCharJump := .setfg } := by
    unfold nextChar setbg
    simp only [bg.spells, h.mask, if_neg (mask_ne_zero _)]
  have hfg : nextChar video true
      { s with textAttribute := bg.value <<< 4, nextCharJump := .setfg } fg.char =
        { s with textAttribute := bg.value <<< 4 ||| fg.value, nextCharJump := .putchar } := by
    unfold nextChar setfg
    simp only [fg.spells, h.mask, if_neg (mask_ne_zero _)]
    rfl
  rw [hcode, hbg, hfg]
  exact ⟨⟨rfl, h.mask, rfl, h.shows⟩, rfl⟩

/-! ## Files -/

variable {tokens : List Token} {page : Page × UInt8}

/-- A plain character does not end the file. -/
theorem Plain.not_eof {al : UInt8} (h : Plain al) : al ≠ 0x1A := by
  rintro rfl
  exact h.2 ⟨by decide, by decide⟩

/-- A hexadecimal digit does not end a file. -/
theorem Digit.not_eof (digit : Digit) : digit.char ≠ 0x1A := by
  intro heq
  have hspells := digit.spells
  rw [heq] at hspells
  cases hspells

/-- A token in front of a file does to the screen what it does to the page. -/
theorem ready_token (h : Ready rows cols page s) (hrows : rows < 255) (hcols : cols < 255)
    (token : Token) (file : List UInt8) :
    ∃ s', printMsgFile video true (token.spell ++ file) s = printMsgFile video true file s' ∧
      Ready rows cols (token.write rows cols page) s' ∧ s'.serial = s.serial ++ token.serial := by
  obtain ⟨p, attr⟩ := page
  cases token with
  | char c plain =>
    refine ⟨_, if_neg plain.not_eof, h.char hrows hcols plain⟩
  | ret =>
    refine ⟨_, rfl, ?_⟩
    rw [nextChar_ret h, Token.serial, List.append_nil]
    exact ⟨h, rfl⟩
  | newline =>
    exact ⟨_, rfl, h.newline hrows⟩
  | color bg fg =>
    have hfile : printMsgFile video true ([0x0F, bg.char, fg.char] ++ file) s =
        printMsgFile video true file (nextChar video true
          (nextChar video true (nextChar video true s 0x0F) bg.char) fg.char) := by
      simp only [List.cons_append, List.nil_append, printMsgFile, if_neg bg.not_eof,
        if_neg fg.not_eof]
      rfl
    obtain ⟨hready, hserial⟩ := @Ready.color video rows cols p s attr h bg fg
    exact ⟨_, hfile, hready, by rw [hserial, Token.serial, List.append_nil]⟩

/-- So do all tokens of a file. -/
theorem ready_tokens (h : Ready rows cols page s) (hrows : rows < 255) (hcols : cols < 255)
    (tokens : List Token) :
    ∃ s', printMsgFile video true (tokens.flatMap Token.spell) s = s' ∧
      Ready rows cols (writeTokens rows cols page tokens) s' ∧
      s'.serial = s.serial ++ tokens.flatMap Token.serial := by
  induction tokens generalizing s page with
  | nil => exact ⟨s, rfl, h, (List.append_nil _).symm⟩
  | cons token tokens ih =>
    obtain ⟨s₁, hfile, hready, hserial⟩ :=
      @ready_token video rows cols s page h hrows hcols token (tokens.flatMap Token.spell)
    obtain ⟨s', htokens, hready', hserial'⟩ := ih hready
    refine ⟨s', ?_, hready', ?_⟩
    · rw [List.flatMap_cons, hfile, htokens]
    · rw [hserial', hserial, List.flatMap_cons, List.append_assoc]

/-- At first the screen shows a page that is the screen itself. -/
theorem shows_page (hcursor : d.readCursor.OnScreen) :
    Shows d.vidRows.toNat d.vidCols.toNat d.page d.readCursor := by
  refine ⟨rfl, rfl, (Nat.zero_add _).symm, rfl, ?_, ?_, hcursor⟩
  · intro r hr k _
    change d.bios.cell r k = if 0 + r ≤ d.vidRows.toNat then d.bios.cell (0 + r) k else _
    rw [Nat.zero_add, if_pos hr]
  · intro r hr k
    change 0 + d.vidRows.toNat < r at hr
    exact if_neg (by omega)

/-- For every file of text, line ends and colors: the screen shows the last rows of the page on which
it is written, from the cursor on and with the default attribute at first, and the serial port gets
its text. -/
theorem message_file_shows_page (video : Video) (tokens : List Token) (s : State)
    (hcursor : s.display.readCursor.OnScreen) (hrows : s.display.vidRows < 255)
    (hcols : s.display.vidCols < 255) :
    let rows := s.display.vidRows.toNat
    let cols := s.display.vidCols.toNat
    let s' := getMsgFile video true (tokens.flatMap Token.spell) s
    Shows rows cols (writeTokens rows cols (s.display.page, 0x07) tokens).1 s'.display ∧
      s'.serial = s.serial ++ tokens.flatMap Token.serial := by
  intro rows cols s'
  have hstart : Ready rows cols (s.display.page, 0x07)
      (initvars { s with textAttribute := 0x07, displayMask := 0x07 }) :=
    ⟨rfl, rfl, rfl, shows_page hcursor⟩
  obtain ⟨_, rfl, hready, hserial⟩ := @ready_tokens video rows cols _ _ hstart
    (UInt8.lt_iff_toNat_lt.mp hrows) (UInt8.lt_iff_toNat_lt.mp hcols) tokens
  exact ⟨hready.shows, hserial⟩

/-- Two characters in two colors. -/
theorem message_file_shows_page_sample :
    let tokens := [Token.char 0x41 (by decide), .newline, .color ⟨0x34, 4, rfl⟩ ⟨0x66, 15, rfl⟩,
      .char 0x42 (by decide), .ret, .newline]
    let s' := getMsgFile sampleVideo true (tokens.flatMap Token.spell) sampleState
    Shows 24 79 (writeTokens 24 79 (sampleState.display.page, 0x07) tokens).1 s'.display ∧
      s'.serial = sampleState.serial ++ tokens.flatMap Token.serial :=
  message_file_shows_page sampleVideo _ sampleState ⟨rfl, rfl, by decide, by decide⟩ (by decide)
    (by decide)

/-! ## Text stays -/

/-- One place is in front of another one. -/
def InFront (r k r' k' : Nat) : Prop := r < r' ∨ r = r' ∧ k < k'

/-- A part of a file leaves all that is in front alone, and goes on behind it. -/
theorem write_inFront (token : Token) {r k : Nat} (h : InFront r k page.1.row page.1.col) :
    let page' := token.write rows cols page
    page'.1.cell r k = page.1.cell r k ∧ InFront r k page'.1.row page'.1.col := by
  obtain ⟨p, attr⟩ := page
  unfold InFront at *
  cases token with
  | char c plain =>
    simp only [Token.write, Page.put, Page.newline]
    split_ifs
    · simp only
      grind
    · simp only
      grind
  | ret => exact ⟨rfl, h⟩
  | newline =>
    simp only [Token.write, Page.newline] at *
    exact ⟨trivial, by omega⟩
  | color bg fg => exact ⟨rfl, h⟩

/-- The cells in front of the cursor stay as they are. -/
theorem writeTokens_inFront (tokens : List Token) {r k : Nat}
    (h : InFront r k page.1.row page.1.col) :
    let page' := writeTokens rows cols page tokens
    page'.1.cell r k = page.1.cell r k ∧ InFront r k page'.1.row page'.1.col := by
  induction tokens generalizing page with
  | nil => exact ⟨rfl, h⟩
  | cons token tokens ih =>
    obtain ⟨hcell, hnext⟩ := @write_inFront rows cols page token r k h
    obtain ⟨hcells, hend⟩ := ih hnext
    exact ⟨hcells.trans hcell, hend⟩

/-- A character is in front of the cursor when it was put. -/
theorem put_inFront (p : Page) (c : Cell) :
    (p.put rows cols c).cell p.row p.col = c ∧
      InFront p.row p.col (p.put rows cols c).row (p.put rows cols c).col := by
  unfold Page.put Page.newline InFront
  simp only
  split_ifs
  · exact ⟨by simp, by simp⟩
  · exact ⟨by simp, by simp⟩

/-- Each character of such a file is on the screen behind it, in its place and with its attribute, as
long as its row has not gone out at the top. -/
theorem message_text_stays (video : Video) (before after : List Token) (c : UInt8) (plain : Plain c)
    (s : State) (hcursor : s.display.readCursor.OnScreen) (hrows : s.display.vidRows < 255)
    (hcols : s.display.vidCols < 255) :
    let rows := s.display.vidRows.toNat
    let cols := s.display.vidCols.toNat
    let tokens := before ++ .char c plain :: after
    let place := writeTokens rows cols (s.display.page, 0x07) before
    let top := (writeTokens rows cols (s.display.page, 0x07) tokens).1.top
    let s' := getMsgFile video true (tokens.flatMap Token.spell) s
    top ≤ place.1.row →
      s'.display.bios.cell (place.1.row - top) place.1.col = ⟨c, place.2⟩ := by
  intro rows cols tokens place top s' hvisible
  have hstart : Ready rows cols (s.display.page, 0x07)
      (initvars { s with textAttribute := 0x07, displayMask := 0x07 }) :=
    ⟨rfl, rfl, rfl, shows_page hcursor⟩
  have hrows' := UInt8.lt_iff_toNat_lt.mp hrows
  have hcols' := UInt8.lt_iff_toNat_lt.mp hcols
  obtain ⟨_, rfl, hready, -⟩ := @ready_tokens video rows cols _ _ hstart hrows' hcols' tokens
  obtain ⟨_, -, hplace, -⟩ := @ready_tokens video rows cols _ _ hstart hrows' hcols' before
  have hpage : writeTokens rows cols (s.display.page, 0x07) tokens =
      writeTokens rows cols (place.1.put rows cols ⟨c, place.2⟩, place.2) after :=
    List.foldl_append
  obtain ⟨hcell, hfront⟩ := @put_inFront rows cols place.1 ⟨c, place.2⟩
  obtain ⟨hkept, hend⟩ := @writeTokens_inFront rows cols
    (place.1.put rows cols ⟨c, place.2⟩, place.2) after _ _ hfront
  rw [← hpage] at hkept hend
  rw [hcell] at hkept
  have hbottom : place.1.row ≤ top + rows := by
    refine le_trans ?_ hready.shows.row_le
    rcases hend with hlt | heq
    · exact hlt.le
    · exact heq.1.le
  have hshown : s'.display.bios.cell (place.1.row - top) place.1.col =
      (writeTokens rows cols (s.display.page, 0x07) tokens).1.cell
        (top + (place.1.row - top)) place.1.col :=
    hready.shows.cell_eq (place.1.row - top) (by omega) place.1.col hplace.shows.col_le
  rw [hshown, Nat.add_sub_cancel' hvisible, hkept]

/-- A character between two line ends. -/
theorem message_text_stays_sample :
    let tokens := [Token.newline] ++ .char 0x41 (by decide) :: [.newline]
    let place := writeTokens 24 79 (sampleState.display.page, 0x07) [.newline]
    let top := (writeTokens 24 79 (sampleState.display.page, 0x07) tokens).1.top
    let s' := getMsgFile sampleVideo true (tokens.flatMap Token.spell) sampleState
    s'.display.bios.cell (place.1.row - top) place.1.col = ⟨0x41, place.2⟩ :=
  message_text_stays sampleVideo [.newline] [.newline] 0x41 (by decide) sampleState
    ⟨rfl, rfl, by decide, by decide⟩ (by decide) (by decide) (by decide)

/-! ## Text for the graphics mode only -/

/-- What a line that does not wrap has made of a screen: its characters stand one behind the other,
and in the last column the last one that came there. -/
structure Stuck (s s' : State) (text : List UInt8) : Prop where
  next : s'.nextCharJump = .putchar
  mask : s'.displayMask = s.displayMask
  attr : s'.textAttribute = s.textAttribute
  usingVga : s'.display.usingVga = s.display.usingVga
  vidCols : s'.display.vidCols = s.display.vidCols
  onScreen : s'.display.OnScreen
  row : s'.display.cursorRow = s.display.cursorRow
  col : s'.display.cursorCol.toNat =
    min (s.display.cursorCol.toNat + text.length) s.display.vidCols.toNat
  front : ∀ i c, text[i]? = some c → s.display.cursorCol.toNat + i < s.display.vidCols.toNat →
    s'.display.bios.cell s.display.cursorRow.toNat (s.display.cursorCol.toNat + i) =
      ⟨c, s.textAttribute⟩
  last : ∀ c, text.getLast? = some c →
    s.display.vidCols.toNat < s.display.cursorCol.toNat + text.length →
    s'.display.bios.cell s.display.cursorRow.toNat s.display.vidCols.toNat = ⟨c, s.textAttribute⟩
  frame : ∀ r k, r ≠ s.display.cursorRow.toNat ∨ k < s.display.cursorCol.toNat ∨
      s.display.cursorCol.toNat + text.length ≤ k ∨ s.display.vidCols.toNat < k →
    s'.display.bios.cell r k = s.display.bios.cell r k

/-- What one character of such a line does. -/
structure Sticks (s s' : State) (al : UInt8) : Prop where
  next : s'.nextCharJump = .putchar
  mask : s'.displayMask = s.displayMask
  attr : s'.textAttribute = s.textAttribute
  usingVga : s'.display.usingVga = s.display.usingVga
  vidCols : s'.display.vidCols = s.display.vidCols
  onScreen : s'.display.OnScreen
  row : s'.display.cursorRow = s.display.cursorRow
  col : s'.display.cursorCol.toNat =
    min (s.display.cursorCol.toNat + 1) s.display.vidCols.toNat
  cell : ∀ r k, s'.display.bios.cell r k =
    if r = s.display.cursorRow.toNat ∧ k = s.display.cursorCol.toNat then ⟨al, s.textAttribute⟩
    else s.display.bios.cell r k

/-- The line wraps by the mode for text: `CL` has become the count of characters. -/
theorem sticks_nextChar {al : UInt8} (hal : Plain al) (hnext : s.nextCharJump = .putchar)
    (hgraphics : s.display.usingVga &&& 1 = 1) (hmask : s.displayMask &&& 0x02 ≠ 0)
    (htext : s.displayMask &&& 0x01 = 0) (hon : s.display.OnScreen)
    (hcols : s.display.vidCols < 255) : Sticks s (nextChar video true s al) al := by
  have hle := UInt8.le_iff_toNat_le.mp hon.col_le
  have hlt := UInt8.lt_iff_toNat_lt.mp hcols
  have hnextCol := @toNat_add_one s.display.cursorCol (hle.trans_lt hlt)
  have hnormal : nextChar video true s al = normal true 0x02 s al := by
    unfold nextChar
    simp only [hnext, hgraphics]
    exact putchar_plain hal
  have hserial : ∀ bytes, ∃ serial, s.writeSerial bytes = { s with serial := serial } := by
    intro bytes
    unfold State.writeSerial
    split_ifs
    · exact ⟨s.serial, rfl⟩
    · exact ⟨_, rfl⟩
  obtain ⟨serial, hserial⟩ := hserial [al]
  have hcell : ∀ r k, (s.display.bios.writeCell ⟨al, s.textAttribute⟩).cell r k =
      if r = s.display.cursorRow.toNat ∧ k = s.display.cursorCol.toNat then ⟨al, s.textAttribute⟩
      else s.display.bios.cell r k := by
    intro r k
    rw [← hon.row_eq, ← hon.col_eq]
    rfl
  rw [hnormal, normal, hserial]
  simp only [if_neg hmask, if_true]
  by_cases hlast : s.display.vidCols < s.display.cursorCol + 1
  · have hlast' := UInt8.lt_iff_toNat_lt.mp hlast
    rw [if_pos hlast, lineWrap, if_pos htext]
    refine ⟨hnext, rfl, rfl, rfl, rfl, ⟨hon.row_eq, hon.col_eq, hon.row_le, hon.col_le⟩, rfl, ?_,
      hcell⟩
    change s.display.cursorCol.toNat = _
    omega
  · have hlast' := UInt8.lt_iff_toNat_lt.not.mp hlast
    rw [if_neg hlast]
    refine ⟨hnext, rfl, rfl, rfl, rfl,
      Display.gotoxy_onScreen hon.row_le (UInt8.not_lt.mp hlast), rfl, ?_, hcell⟩
    change (s.display.cursorCol + 1).toNat = _
    omega

/-- In front of the text the cursor is where it was. -/
theorem Stuck.nil (hnext : s.nextCharJump = .putchar) (hon : s.display.OnScreen) :
    Stuck s s [] where
  next := hnext
  mask := rfl
  attr := rfl
  usingVga := rfl
  vidCols := rfl
  onScreen := hon
  row := rfl
  col := (Nat.min_eq_left (UInt8.le_iff_toNat_le.mp hon.col_le)).symm
  front := fun i c hc => by cases hc
  last := fun c hc => by cases hc
  frame := fun _ _ _ => rfl

/-- A character more: in the last column, it is written over the one that was there. -/
theorem Stuck.concat {s' s'' : State} {text : List UInt8} {al : UInt8} (hon : s.display.OnScreen)
    (h : Stuck s s' text) (hal : Sticks s' s'' al) : Stuck s s'' (text ++ [al]) := by
  have hle := UInt8.le_iff_toNat_le.mp hon.col_le
  have hcell := hal.cell
  rw [h.row, h.col, h.attr] at hcell
  have hcol := hal.col
  rw [h.col, h.vidCols] at hcol
  refine ⟨hal.next, hal.mask.trans h.mask, hal.attr.trans h.attr, hal.usingVga.trans h.usingVga,
    hal.vidCols.trans h.vidCols, hal.onScreen, hal.row.trans h.row, ?_, fun i c hc hlt => ?_,
    fun c hc hlt => ?_, fun r k hout => ?_⟩
  · rw [List.length_append, List.length_singleton]
    omega
  · rw [hcell]
    rcases Nat.lt_or_ge i text.length with hi | hi
    · rw [List.getElem?_append_left hi] at hc
      rw [if_neg (by omega)]
      exact h.front i c hc hlt
    · have hilt := (List.getElem?_eq_some_iff.mp hc).1
      rw [List.length_append, List.length_singleton] at hilt
      obtain rfl : i = text.length := by omega
      rw [List.getElem?_concat_length] at hc
      rw [if_pos ⟨rfl, by omega⟩, Option.some.inj hc]
  · rw [List.length_append, List.length_singleton] at hlt
    rw [List.getLast?_concat] at hc
    rw [hcell, if_pos ⟨rfl, by omega⟩, Option.some.inj hc]
  · rw [List.length_append, List.length_singleton] at hout
    rw [hcell, if_neg (by omega)]
    exact h.frame r k (by omega)

/-- The last of some plain characters is displayed behind the others. -/
theorem printMsgFile_concat {text : List UInt8} {al : UInt8} (hplain : ∀ c ∈ text, Plain c)
    (hal : Plain al) : printMsgFile video true (text ++ [al]) s =
      nextChar video true (printMsgFile video true text s) al := by
  induction text generalizing s with
  | nil => exact if_neg hal.not_eof
  | cons c text ih =>
    rw [List.forall_mem_cons] at hplain
    rw [List.cons_append, printMsgFile, if_neg hplain.1.not_eof, ih hplain.2, printMsgFile,
      if_neg hplain.1.not_eof]

/-- In graphics mode, text that is only displayed there does not wrap: the cursor stays in its row,
and in the last column each further character is written over the one before. Nothing else on the
screen changes. -/
theorem graphics_text_never_wraps (video : Video) (text : List UInt8) (s : State)
    (hplain : ∀ al ∈ text, Plain al) (hnext : s.nextCharJump = .putchar)
    (hgraphics : s.display.usingVga &&& 1 = 1) (hmask : s.displayMask &&& 0x02 ≠ 0)
    (htext : s.displayMask &&& 0x01 = 0) (hon : s.display.OnScreen)
    (hcols : s.display.vidCols < 255) : Stuck s (printMsgFile video true text s) text := by
  induction text using List.reverseRecOn with
  | nil => exact Stuck.nil hnext hon
  | append_singleton text al ih =>
    have hfront : ∀ c ∈ text, Plain c := fun c hc => hplain c (List.mem_append_left _ hc)
    have hal : Plain al := hplain al (List.mem_append_right _ (List.mem_singleton_self al))
    have hstuck := ih hfront
    rw [printMsgFile_concat hfront hal]
    exact hstuck.concat hon (sticks_nextChar hal hstuck.next (by rw [hstuck.usingVga]; exact hgraphics)
      (by rw [hstuck.mask]; exact hmask) (by rw [hstuck.mask]; exact htext) hstuck.onScreen
      (by rw [hstuck.vidCols]; exact hcols))

/-- Three characters from the last column but one on. -/
theorem graphics_text_never_wraps_sample :
    let s := { sampleState with
      displayMask := 0x02
      display := { clearedDisplay 1 with cursorCol := 78 }.gotoxy }
    Stuck s (printMsgFile sampleVideo true [0x41, 0x42, 0x43] s) [0x41, 0x42, 0x43] := by
  refine graphics_text_never_wraps sampleVideo [0x41, 0x42, 0x43] _ ?_ rfl (by decide) (by decide)
    (by decide) ⟨rfl, rfl, by decide, by decide⟩ (by decide)
  simp only [List.forall_mem_cons]
  exact ⟨by decide, by decide, by decide, List.forall_mem_nil _⟩

end Liigboot.Message
