import Liigboot.Getc.PushBack

/-!
# Rules for the parser

The routines of the parser are programs over the operations on the open files. An operation meets
the assumption when it stores nothing over the records of the open files through a pointer, and it
keeps the promise when at most one character is pushed back around it, and none where the operation
asks for that.
-/

namespace Liigboot.Getc

/-- A routine of the parser. -/
abbrev Parser := Program Op.Ret

namespace Parser

def getc : Parser (Option UInt8) := .call Op.getc
def ungetc (al : UInt8) : Parser Unit := .call (Op.ungetc al)
def coreOpen (di : Nat) : Parser Bool := .call (Op.coreOpen di)
def close : Parser Unit := .call Op.close
def incLevel : Parser Unit := .call Op.incLevel
def decLevel : Parser Bool := .call Op.decLevel
def look : Parser Memory := .call Op.look
def set (v : Var) (off : Nat) (bs : List UInt8) (fits : off + bs.length ≤ v.size) : Parser Unit :=
  .call (Op.set v off bs fits)
def stosb (di : Nat) (bs : List UInt8) : Parser Unit := .call (Op.stosb di bs)
def routine (r : Routine) : Parser Nat := .call (Op.routine r)

def setByte (v : Var) (off : Nat) (b : UInt8) (fits : off + 1 ≤ v.size) : Parser Unit :=
  set v off [b] fits

def setWord (v : Var) (off n : Nat) (fits : off + 2 ≤ v.size) : Parser Unit :=
  set v off (leBytes n 2) (by rwa [length_leBytes])

end Parser

variable {φ : Type} {L : Layout} {env : Env L.toPlaces φ} {s s' : State φ}
  {files level top : Nat} {α β : Type}

/-- The stores of an operation through a pointer. -/
def Op.pointed : Op → List (Nat × UInt8)
  | .stosb di bs => segStores di bs
  | _ => []

/-- No byte is stored through a pointer over the record of an open file, or over `CurrentGetC` or
`IncludeLevel`. -/
def Misses (L : Layout) (e : Event Op.Ret (State φ)) : Prop :=
  ∀ x ∈ e.op.pointed, ¬ Guarded L e.before x.1

instance (e : Event Op.Ret (State φ)) : Decidable (Misses L e) :=
  inferInstanceAs (Decidable (∀ x ∈ e.op.pointed, _))

/-- At most one character is pushed back in any open file. -/
def Sound (L : Layout) (s : State φ) : Prop := ∃ files level, Stacked L s files level 1

/-- A file is open where one is read or closed, and nothing is pushed back where a character is
pushed back, or a file is opened or closed. -/
def Op.Allowed (L : Layout) (s : State φ) : Op → Prop
  | .getc => ∃ files level, Stacked L s (files + 1) level 1
  | .ungetc _ => ∃ files level, Stacked L s (files + 1) level 0
  | .coreOpen _ => ∃ files level, Stacked L s files level 0
  | .close => ∃ files level, Stacked L s (files + 1) level 0
  | _ => True

structure Fine (L : Layout) (e : Event Op.Ret (State φ)) : Prop where
  before : Sound L e.before
  after : Sound L e.after
  allowed : e.op.Allowed L e.before

/-- What a routine leaves, as long as its stores through pointers miss the records. -/
def Upholds (L : Layout) (env : Env L.toPlaces φ) (p : Parser α) (Q : α → State φ → Prop)
    (s : State φ) : Prop :=
  p.Keeps (exec L env) (Misses L) (Fine L) Q s

variable {p : Parser α} {f : α → Parser β}

/-- A weaker result is upheld with a stronger one. -/
theorem Upholds.mono {P Q : α → State φ → Prop} (h : Upholds L env p P s)
    (hPQ : ∀ a s, P a s → Q a s) : Upholds L env p Q s :=
  Program.Keeps.mono h hPQ

/-- One program behind the other. -/
theorem Upholds.bind {P : α → State φ → Prop} {Q : β → State φ → Prop} (hp : Upholds L env p P s)
    (hf : ∀ a s, P a s → Upholds L env (f a) Q s) : Upholds L env (p >>= f) Q s :=
  Program.Keeps.bind hp hf

/-- Both branches. -/
theorem upholds_ite {c : Prop} [Decidable c] {p p' : Parser α} {Q : α → State φ → Prop}
    (h : c → Upholds L env p Q s) (h' : ¬ c → Upholds L env p' Q s) :
    Upholds L env (if c then p else p') Q s := by
  split
  · next hc => exact h hc
  · next hc => exact h' hc

/-- A loop, with its invariant. -/
theorem upholds_loop {round : α → Parser (α ⊕ β)} {Q : β → State φ → Prop}
    (inv : α → State φ → Prop)
    (hround : ∀ x s, inv x s → Upholds L env (round x) (fun r => r.elim inv Q) s)
    (fuel : Nat) {x : α} (h : inv x s) : Upholds L env (.loop round fuel x) Q s :=
  Program.keeps_loop hround fuel h

/-- A stack of files with a character pushed back at most is sound. -/
theorem Stacked.sound (h : Stacked L s files level top) (htop : top ≤ 1) : Sound L s :=
  ⟨files, level, h.mono htop⟩

/-- The operations that do not touch the records. -/
def Op.Plain : Op → Prop
  | .look | .set .. | .stosb .. | .routine _ => True
  | _ => False

/-- An operation that leaves the files alone is always allowed. -/
theorem Op.Plain.allowed {o : Op} (h : o.Plain) (s : State φ) : o.Allowed L s := by
  cases o with
  | look | set _ _ _ _ | stosb _ _ | routine _ => trivial
  | getc | ungetc _ | coreOpen _ | close | incLevel | decLevel => exact h.elim

/-- A variable is apart from the records, and a store through a pointer is assumed to miss them. -/
theorem exec_guarded {o : Op} {a : Nat} (h : Stacked L s files level top) (hplain : o.Plain)
    (hmiss : Misses L (eventOf (exec L env) o s)) (hg : Guarded L s a) :
    (exec L env o s).2.seg a = s.seg a := by
  cases o with
  | look => rfl
  | set v off bs fits =>
    apply seg_write_of_ne
    rintro i hi rfl
    obtain ⟨hlt, hres⟩ := L.var_apart v (off + i) (by omega)
    rw [Nat.add_assoc, Nat.mod_eq_of_lt hlt] at hg
    exact hres (h.reserved hg)
  | stosb di bs => exact putAll_of_ne fun x hx heq => hmiss x hx (heq ▸ hg)
  | routine r =>
    exact putAll_of_ne fun x hx heq =>
      (env.routine r s.seg s.fs).1.misses x hx (heq ▸ h.reserved hg)
  | getc | ungetc _ | coreOpen _ | close | incLevel | decLevel => exact hplain.elim

/-- An operation that is allowed, and leaves the records as they should be. -/
theorem upholds_call {o : Op} {Q : o.Ret → State φ → Prop} (h : Stacked L s files level top)
    (htop : top ≤ 1) (hallowed : o.Allowed L s)
    (hexec : Misses L (eventOf (exec L env) o s) →
      Sound L (exec L env o s).2 ∧ Q (exec L env o s).1 (exec L env o s).2) :
    Upholds L env (.call o) Q s := by
  intro hmiss
  obtain ⟨hafter, hQ⟩ := hexec hmiss
  exact ⟨⟨h.sound htop, hafter, hallowed⟩, hQ⟩

namespace Parser

/-- Reading a character takes the one that is pushed back. -/
theorem upholds_getc (h : Stacked L s (files + 1) level 1) :
    Upholds L env getc (fun _ s => Stacked L s (files + 1) level 0) s := by
  refine upholds_call h le_rfl ⟨files, level, h⟩ fun _ => ?_
  have hafter : Stacked L (Getc.getc L env s).2 (files + 1) level 0 :=
    h.after_getc (Nat.succ_pos _)
  exact ⟨hafter.sound (Nat.zero_le _), hafter⟩

/-- A character is pushed back when none is. -/
theorem upholds_ungetc {al : UInt8} (h : Stacked L s (files + 1) level 0) :
    Upholds L env (ungetc al) (fun _ s => Stacked L s (files + 1) level 1) s := by
  refine upholds_call h (Nat.zero_le _) ⟨files, level, h⟩ fun _ => ?_
  have hafter : Stacked L (Getc.ungetc L al s) (files + 1) level 1 :=
    h.after_ungetc (Nat.succ_pos _)
  exact ⟨hafter.sound le_rfl, hafter⟩

/-- A file is opened above the others, if that succeeds. -/
theorem upholds_coreOpen {di : Nat} (h : Stacked L s files level 0) :
    Upholds L env (coreOpen di)
      (fun ok s => Stacked L s (if ok then files + 1 else files) level 0) s := by
  refine upholds_call h (Nat.zero_le _) ⟨files, level, h⟩ fun _ => ?_
  obtain ⟨htrue, hfalse⟩ := @Stacked.after_coreOpen φ L env s files level di h
  have hafter : Stacked L (Getc.coreOpen L env di s).2
      (if (Getc.coreOpen L env di s).1 then files + 1 else files) level 0 := by
    cases hok : (Getc.coreOpen L env di s).1 with
    | true => exact htrue hok
    | false => exact hfalse hok
  exact ⟨hafter.sound (Nat.zero_le _), hafter⟩

/-- The file on top is closed. -/
theorem upholds_close (h : Stacked L s (files + 1) level 0) :
    Upholds L env close (fun _ s => Stacked L s files level 0) s := by
  refine upholds_call h (Nat.zero_le _) ⟨files, level, h⟩ fun _ => ?_
  have hafter : Stacked L (Getc.close L env s) files level 0 := h.after_close
  exact ⟨hafter.sound (Nat.zero_le _), hafter⟩

/-- The level is counted up. -/
theorem upholds_incLevel (h : Stacked L s files level top) (htop : top ≤ 1) :
    Upholds L env incLevel (fun _ s => Stacked L s files ((level + 1) % 0x10000) top) s := by
  refine upholds_call h htop trivial fun _ => ?_
  have hafter := h.after_level (level + 1)
  rw [← h.level_eq] at hafter ⊢
  exact ⟨hafter.sound htop, hafter⟩

/-- The level is counted down, and told to be zero when it was. -/
theorem upholds_decLevel (h : Stacked L s files (level + 1) top) (htop : top ≤ 1) :
    Upholds L env decLevel
      (fun zero s => Stacked L s files level top ∧ zero = decide (level = 0)) s := by
  refine upholds_call h htop trivial fun _ => ?_
  have hlt := word_lt s L.includeLevel
  have hlevel := h.level_eq
  have hdec : (s.word L.includeLevel + 0xffff) % 0x10000 = level := by omega
  have hafter := h.after_level level
  rw [Nat.mod_eq_of_lt (by omega)] at hafter
  have heq : Getc.decLevel L s =
      (decide (level = 0), s.write L.includeLevel (leBytes level 2)) := by
    rw [Getc.decLevel, hdec]
  rw [exec, heq]
  exact ⟨hafter.sound htop, hafter, rfl⟩

/-- A plain operation leaves the stack. -/
theorem upholds_plain {o : Op} (hplain : o.Plain) (h : Stacked L s files level top)
    (htop : top ≤ 1) :
    Upholds L env (.call o) (fun _ s => Stacked L s files level top) s := by
  refine upholds_call h htop (hplain.allowed s) fun hmiss => ?_
  have hafter := h.congr fun _ hg => exec_guarded h hplain hmiss hg
  exact ⟨hafter.sound htop, hafter⟩

/-- So does looking at a byte. -/
theorem upholds_look (h : Stacked L s files level top) (htop : top ≤ 1) :
    Upholds L env look (fun _ s => Stacked L s files level top) s :=
  upholds_plain trivial h htop

/-- So does a store to a variable. -/
theorem upholds_set {v : Var} {off : Nat} {bs : List UInt8} {fits : off + bs.length ≤ v.size}
    (h : Stacked L s files level top) (htop : top ≤ 1) :
    Upholds L env (set v off bs fits) (fun _ s => Stacked L s files level top) s :=
  upholds_plain trivial h htop

/-- So does a store of a byte. -/
theorem upholds_setByte {v : Var} {off : Nat} {b : UInt8} {fits : off + 1 ≤ v.size}
    (h : Stacked L s files level top) (htop : top ≤ 1) :
    Upholds L env (setByte v off b fits) (fun _ s => Stacked L s files level top) s :=
  upholds_set h htop

/-- So does a store of a word. -/
theorem upholds_setWord {v : Var} {off n : Nat} {fits : off + 2 ≤ v.size}
    (h : Stacked L s files level top) (htop : top ≤ 1) :
    Upholds L env (setWord v off n fits) (fun _ s => Stacked L s files level top) s :=
  upholds_set h htop

/-- So does a store to a buffer. -/
theorem upholds_stosb {di : Nat} {bs : List UInt8} (h : Stacked L s files level top)
    (htop : top ≤ 1) :
    Upholds L env (stosb di bs) (fun _ s => Stacked L s files level top) s :=
  upholds_plain trivial h htop

/-- So does a routine outside of the parser. -/
theorem upholds_routine {r : Routine} (h : Stacked L s files level top) (htop : top ≤ 1) :
    Upholds L env (routine r) (fun _ s => Stacked L s files level top) s :=
  upholds_plain trivial h htop

end Parser

end Liigboot.Getc
