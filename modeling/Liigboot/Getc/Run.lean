import Liigboot.Getc.ParseConfig

/-!
# The runs of the parser

Around all operations of a run at most one character is pushed back in each open file, and the next
operation on the open files reads it. That holds up to the first byte of a word or a line that is
stored over the records of the open files.
-/

namespace Liigboot.Getc

variable {φ : Type} {L : Layout} {env : Env L.toPlaces φ} {s s' : State φ}
  {files level top fuel : Nat} {al : UInt8}

/-! ## What is claimed of a run -/

/-- The operations on the open files. -/
def Op.OnStack : Op → Prop
  | .getc | .ungetc _ | .coreOpen _ | .close => True
  | _ => False

/-- A character is read. -/
def Reads (al : UInt8) : Event Op.Ret (State φ) → Prop
  | ⟨.getc, res, _, _⟩ => res = some al
  | _ => False

/-- The record of an open file. -/
def IsOpen (L : Layout) (s : State φ) (r : Nat) : Prop := ∃ i, r = record L s i ∧ r < L.getCEnd

/-- At most one character is pushed back in any open file at any time. It is stored in the record of
its own file, and the next operation on the open files reads it. -/
structure PushesBack (L : Layout) (log : List (Event Op.Ret (State φ))) : Prop where
  count_le : ∀ e ∈ log, ∀ s, s = e.before ∨ s = e.after → ∀ r, IsOpen L s r → ungetCnt s r ≤ 1
  within : ∀ e ∈ log, ∀ al, e.op = .ungetc al →
    IsOpen L e.before (record L e.before 0) ∧
      Within (record L e.before 0) 0 getcFileSize e.before e.after
  next : ∀ front mid back e e' al, log = front ++ e :: (mid ++ e' :: back) → e.op = .ungetc al →
    (∀ m ∈ mid, ¬ m.op.OnStack) → e'.op.OnStack → Reads al e'

/-- The program as it is loaded: `GetCStack` is empty, and `IncludeLevel` is one. -/
def State.loaded (L : Layout) (s : State φ) : State φ :=
  (s.write L.currentGetC (leBytes L.getCEnd 2)).write L.includeLevel (leBytes 1 2)

/-- What is done with the configuration file and the files that it includes. -/
def parseLog (L : Layout) (env : Env L.toPlaces φ) (fuel : Nat) (s : State φ) :
    List (Event Op.Ret (State φ)) :=
  ((Parser.loadConfig L fuel).run (exec L env) (s.loaded L)).1

/-! ## The start -/

theorem stacked_loaded (L : Layout) (s : State φ) : Stacked L (s.loaded L) 0 1 0 := by
  have hend := L.getCEnd_lt
  have hcur := L.currentGetC_lt
  have hlvl := L.includeLevel_lt
  have happart := L.levels_apart
  have hword : (s.loaded L).word L.currentGetC = L.getCEnd := by
    rw [State.loaded, word_write_of_ne, word_write_self, Nat.mod_eq_of_lt hend]
    intro i hi
    rw [length_leBytes] at hi
    omega
  refine ⟨Nat.zero_le _, ?_, word_write_self, fun h => absurd h (Nat.lt_irrefl 0),
    fun i hi => absurd hi (Nat.not_lt_zero i)⟩
  rw [record, hword, Nat.mul_zero, Nat.add_zero]

/-! ## The character that is pushed back -/

theorem Stacked.count_le (h : Stacked L s files level top) {r : Nat} (hr : IsOpen L s r) :
    ungetCnt s r ≤ max top 1 := by
  obtain ⟨i, rfl, hlt⟩ := hr
  have heq := h.current_eq
  have hi : i < files := by
    have hrec : record L s i = s.word L.currentGetC + 16 * i := rfl
    rw [getCEnd_eq] at hlt
    omega
  rcases Nat.eq_zero_or_pos i with rfl | hpos
  · exact (h.top_le hi).trans (Nat.le_max_left _ _)
  · rw [h.below i hi hpos]
    exact Nat.zero_le _

theorem Stacked.isOpen (h : Stacked L s (files + 1) level top) : IsOpen L s (record L s 0) :=
  ⟨0, rfl, by
    have hcur := h.current_eq
    have hrec : record L s 0 = s.word L.currentGetC := rfl
    rw [getCEnd_eq, hrec]
    omega⟩

/-- A character is pushed back in the file on top. -/
structure Pushed (L : Layout) (s : State φ) (al : UInt8) : Prop where
  isOpen : record L s 0 < L.getCEnd
  count : ungetCnt s (record L s 0) = 1
  char : s.byte (record L s 0 + gcUngetBuf) = al

theorem Stacked.pushed (h : Stacked L s (files + 1) level 0) : Pushed L (ungetc L al s) al := by
  have hafter : Stacked L (ungetc L al s) (files + 1) level 1 := h.after_ungetc (Nat.succ_pos _)
  have hrecord : record L (ungetc L al s) 0 = record L s 0 := by
    have heq := h.current_eq
    have heq' := hafter.current_eq
    rw [record, record]
    omega
  obtain ⟨hcnt, hchar⟩ := @ungetc_pushed φ L s al (Nat.le_zero.mp (h.top_le (Nat.succ_pos _)))
  obtain ⟨i, -, hopen⟩ := h.isOpen
  exact ⟨hrecord ▸ hopen, by rw [hrecord, hcnt], by rw [hrecord, hchar]⟩

/-- It stays there as long as the record on top and the pointer to it do. -/
theorem Pushed.congr (h : Pushed L s al) (hsound : Sound L s)
    (hseg : ∀ a, s.word L.currentGetC ≤ a ∧ a < L.getCEnd ∨ a = L.currentGetC ∨
      a = L.currentGetC + 1 → s'.seg a = s.seg a) : Pushed L s' al := by
  obtain ⟨files, level, hs⟩ := hsound
  have heq := hs.current_eq
  have hend := L.getCEnd_lt
  have hcur := L.currentGetC_lt
  have hopen := h.isOpen
  have hrec : record L s 0 = s.word L.currentGetC := rfl
  rw [getCEnd_eq] at hend hopen
  have hword : s'.word L.currentGetC = s.word L.currentGetC :=
    word_congr (byte_congr (by omega) (hseg _ (.inr (.inl rfl))))
      (byte_congr hcur (hseg _ (.inr (.inr rfl))))
  have hrecord : record L s' 0 = record L s 0 := by rw [record, record, hword]
  have hbyte : ∀ k < getcFileSize, s'.byte (record L s 0 + k) = s.byte (record L s 0 + k) := by
    intro k hk
    have hsize : getcFileSize = 16 := rfl
    exact byte_congr (by omega) (hseg _ (.inl ⟨by omega, by rw [getCEnd_eq]; omega⟩))
  refine ⟨hrecord ▸ h.isOpen, ?_, ?_⟩
  · rw [hrecord, ungetCnt, hbyte _ (by decide)]
    exact h.count
  · rw [hrecord, hbyte _ (by decide)]
    exact h.char

/-- Operations that are not on the open files leave it. -/
theorem Pushed.step {o : Op} (h : Pushed L s al) (hsound : Sound L s) (hop : ¬ o.OnStack)
    (hmiss : Misses L (eventOf (exec L env) o s)) : Pushed L (exec L env o s).2 al := by
  obtain ⟨files, level, hs⟩ := hsound
  have hstack := hs.getCStack_le
  have hend := L.getCEnd_lt
  have hlvl := L.includeLevel_lt
  have hapart := L.includeLevel_apart
  have hlevels := L.levels_apart
  refine h.congr ⟨files, level, hs⟩ fun a ha => ?_
  have hlevel : ∀ n, (s.write L.includeLevel (leBytes n 2)).seg a = s.seg a := by
    intro n
    apply seg_write_of_ne
    intro i hi
    rw [length_leBytes] at hi
    omega
  cases o with
  | incLevel => exact hlevel _
  | decLevel => exact hlevel _
  | look | set _ _ _ _ | stosb _ _ | routine _ =>
    exact exec_guarded hs trivial hmiss (ha.imp_right (Or.imp_right Or.inl))
  | getc | ungetc _ | coreOpen _ | close => exact absurd trivial hop

/-- The only operation on the open files that is allowed reads it. -/
theorem Pushed.reads {o : Op} (h : Pushed L s al) (hallowed : o.Allowed L s) (hop : o.OnStack) :
    Reads al (eventOf (exec L env) o s) := by
  have hone : ∀ files level, Stacked L s files level 0 → False := by
    intro files level hs
    have heq := hs.current_eq
    have hopen := h.isOpen
    have hrec : record L s 0 = s.word L.currentGetC := rfl
    rw [getCEnd_eq] at hopen
    have htop := hs.top_le (by omega)
    rw [h.count] at htop
    exact absurd htop (by decide)
  cases o with
  | getc =>
    have hget := @getc_unget φ L env s h.count
    rw [h.char] at hget
    exact congrArg Prod.fst hget
  | ungetc al =>
    obtain ⟨files, level, hs⟩ := hallowed
    exact (hone _ _ hs).elim
  | coreOpen di =>
    obtain ⟨files, level, hs⟩ := hallowed
    exact (hone _ _ hs).elim
  | close =>
    obtain ⟨files, level, hs⟩ := hallowed
    exact (hone _ _ hs).elim
  | incLevel | decLevel | look | set _ _ _ _ | stosb _ _ | routine _ => exact hop.elim

/-- It is still there at the next operation on the open files. -/
theorem Pushed.chain {mid back : List (Event Op.Ret (State φ))} {e e' : Event Op.Ret (State φ)}
    (h : Pushed L e.after al)
    (hchain : (e :: (mid ++ e' :: back)).IsChain fun e e' => e.after = e'.before)
    (hmid : ∀ m ∈ mid, m = eventOf (exec L env) m.op m.before ∧ Sound L m.before ∧ Misses L m ∧
      ¬ m.op.OnStack) : Pushed L e'.before al := by
  induction mid generalizing e with
  | nil =>
    rw [List.nil_append, List.isChain_cons_cons] at hchain
    exact hchain.1 ▸ h
  | cons m mid ih =>
    rw [List.cons_append, List.isChain_cons_cons] at hchain
    obtain ⟨⟨hm, hsound, hmiss, hop⟩, hmid⟩ := List.forall_mem_cons.mp hmid
    apply ih _ hchain.2 hmid
    rw [hchain.1] at h
    have hstep := h.step hsound hop (hm ▸ hmiss)
    rw [hm]
    exact hstep

/-! ## A build, and a file -/

/-- Addresses in the order of the sections, and of the variables in them. -/
def linked : Layout where
  addr
    | .trackbuf => 0x1000
    | .configName => 0x3920
    | .numBuf => 0x3b40
    | .textAttribute => 0x3c60
    | .displayMask => 0x3c61
    | .kbdMap => 0x3c80
    | .fKeyName => 0x3d80
    | .mNameBuf => 0x4a80
    | .initRD => 0x4b80
    | .lssHeader => 0x4cc0
    | .vgaPos => 0x4cf8
    | .vgaFilePtr => 0x4cfa
    | .vgaFileBuf => 0x4cfc
    | .vgaFileMBuf => 0x4dfe
    | .vgaRowBuffer => 0x4f00
    | .displayCon => 0x5300
    | .kbdTimeout => 0x5304
    | .totalTimeout => 0x5308
    | .appendLen => 0x530c
    | .ontimeoutLen => 0x530e
    | .onerrorLen => 0x5310
    | .forcePrompt => 0x5314
    | .noEscape => 0x5316
    | .noComplete => 0x5318
    | .allowImplicit => 0x531a
    | .allowOptions => 0x531c
    | .defaultLevel => 0x5320
    | .pxeRetry => 0x5322
    | .vKernel => 0x5324
    | .noHalt => 0x9700
    | .serialPort => 0x9704
    | .baudDivisor => 0x9706
    | .flowControl => 0x9708
    | .usingVGA => 0x9710
    | .vgaFontSize => 0x9712
    | .userFont => 0x9714
    | .vKernelBuf => 0xb800
    | .appendBuf => 0xc208
    | .ontimeout => 0xca08
    | .onerror => 0xd208
    | .defaultCmd => 0xe20c
  getCStack := 0x3b50
  includeLevel := 0x531e
  currentGetC := 0x9720
  numBuf_eq := rfl
  getCEnd_lt := by decide
  currentGetC_lt := by decide
  includeLevel_lt := by decide
  currentGetC_apart := .inr (by decide)
  includeLevel_apart := .inr (by decide)
  levels_apart := .inr (by decide)
  var_apart v i hi := by
    have hname : Config.filenameMax = 256 := rfl
    have hline : Config.maxCmdLen = 2047 := rfl
    have hkernel : Config.vkSize = 2564 := rfl
    have hend : getcFileSize * maxGetc = 256 := rfl
    cases v <;> simp only [Var.size, Places.Reserved, Places.getCEnd] at hi ⊢ <;> omega

/-- A single file with its contents, and routines that do nothing. -/
def oneFile (p : Places) : Env p (List UInt8) where
  searchdir _ fs := (some 1, fs)
  closeFile _ fs := fs
  getfsbytes _ fs := (fs.take 0x1000, if (fs.drop 0x1000).isEmpty then 0 else 1, fs.drop 0x1000)
  routine _ _ fs := (⟨[], 0, List.forall_mem_nil _⟩, fs)

/-! ## All runs -/

/-- In every run, up to the first byte of a word or a line that is stored over the records of the
open files, at most one character is pushed back in each file, in the record of its own, and it is
the next one read. -/
theorem parse_config_pushesBack (L : Layout) (env : Env L.toPlaces φ) (fuel : Nat) (s : State φ)
    (front : List (Event Op.Ret (State φ))) (hfront : front <+: parseLog L env fuel s)
    (hmiss : ∀ e ∈ front, Misses L e) : PushesBack L front := by
  have hfine : ∀ e ∈ front, Fine L e :=
    Program.Keeps.log (Parser.upholds_loadConfig (stacked_loaded L s)) hfront hmiss
  have hevent : ∀ e ∈ front, e = eventOf (exec L env) e.op e.before := fun e he =>
    Program.eq_eventOf_of_mem_log (hfront.subset he)
  have hchain : front.IsChain fun e e' => e.after = e'.before := by
    have hlog : (parseLog L env fuel s).IsChain fun e e' => e.after = e'.before :=
      Program.isChain_log (Parser.loadConfig L fuel) (s.loaded L)
    obtain ⟨back, hback⟩ := hfront
    rw [← hback] at hlog
    exact (List.isChain_append.mp hlog).1
  refine ⟨?_, ?_, ?_⟩
  · rintro e he s (rfl | rfl) r hr
    · obtain ⟨files, level, h⟩ := (hfine e he).before
      exact h.count_le hr
    · obtain ⟨files, level, h⟩ := (hfine e he).after
      exact h.count_le hr
  · intro e he al hop
    have hallowed := (hfine e he).allowed
    have hafter := congrArg Event.after (hevent e he)
    rw [hop] at hallowed hafter
    obtain ⟨files, level, h⟩ := hallowed
    rw [hafter]
    exact ⟨h.isOpen, ungetc_within (Nat.le_zero.mp (h.top_le (Nat.succ_pos _)))⟩
  · rintro front mid back e e' al rfl hop hmid hop'
    have hmem : ∀ m ∈ e :: (mid ++ e' :: back), m ∈ front ++ e :: (mid ++ e' :: back) := fun m hm =>
      List.mem_append_right front hm
    have hmem' : e' ∈ front ++ e :: (mid ++ e' :: back) := hmem e' (by simp)
    have hallowed := (hfine e (hmem e List.mem_cons_self)).allowed
    have hafter := congrArg Event.after (hevent e (hmem e List.mem_cons_self))
    rw [hop] at hallowed hafter
    obtain ⟨files, level, h⟩ := hallowed
    have hpushed : Pushed L e.after al := hafter ▸ h.pushed
    have hthere : Pushed L e'.before al :=
      hpushed.chain (List.isChain_append.mp hchain).2.1 fun m hm =>
        have hm' := hmem m (by simp [hm])
        ⟨hevent m hm', (hfine m hm').before, hmiss m hm', hmid m hm⟩
    have hreads : Reads al (eventOf (exec L env) e'.op e'.before) :=
      hthere.reads (hfine e' hmem').allowed hop'
    rw [← hevent e' hmem'] at hreads
    exact hreads

/-- With the file `say x`. -/
theorem parse_config_pushesBack_say :
    PushesBack linked (parseLog linked (oneFile _) 8
      ⟨fun _ => 0, fun _ => 0, [0x73, 0x61, 0x79, 0x20, 0x78]⟩) :=
  parse_config_pushesBack linked (oneFile _) 8 _ _ List.prefix_rfl (by decide +kernel)

end Liigboot.Getc
