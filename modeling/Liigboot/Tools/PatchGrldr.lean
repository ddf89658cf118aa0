import Liigboot.Config.Keyword
import Liigboot.Lib.Lines
import Liigboot.Tools.Elf32

/-!
# The menu inside the boot loader

`patch_grldr.py` simplifies a menu and embeds it in the loader, between the last two NULs of the
image. The menu is found again by these NULs, so it must not have one itself. The loop over its
lines knows whether a title was seen: in front of the first one a command is dropped that the loader
does not need.
-/

namespace Liigboot.Tools

open Liigboot.Config (asciiLower)

/-! ## The menu -/

/-- White space for `strip` and `split`. -/
def isSpaceByte (c : UInt8) : Bool := c == 0x20 || (0x09 ≤ c && c ≤ 0x0d)

/-- `menu_data.replace('\r', '\n').split('\n')` -/
def menuLines (menuData : List UInt8) : List (List UInt8) :=
  (menuData.map fun c => if c = 0x0d then 0x0a else c).splitOn 0x0a

/-- `line.strip()` -/
def stripLine (line : List UInt8) : List UInt8 := trimEnds isSpaceByte line

/-- `line and not line.startswith('##')` -/
def isCommand (line : List UInt8) : Bool := line ≠ [] && !(line.take 2 == [0x23, 0x23])

/-- `line.split(None, 1)[0].lower()`, of a line that is not blank. -/
def commandName (line : List UInt8) : List UInt8 :=
  ((line.dropWhile isSpaceByte).takeWhile (!isSpaceByte ·)).map asciiLower

/-- `'title'` -/
def title : List UInt8 := [0x74, 0x69, 0x74, 0x6c, 0x65]

/-- `'label'` -/
def label : List UInt8 := [0x6c, 0x61, 0x62, 0x65, 0x6c]

/-- `cmd in ('title', 'label')` -/
def isTitle (line : List UInt8) : Bool := commandName line ∈ [title, label]

/-- `'root (hd0)'` -/
def rootHd0 : List UInt8 := [0x72, 0x6f, 0x6f, 0x74, 0x20, 0x28, 0x68, 0x64, 0x30, 0x29]

/-- One round of the loop of `simplify_menu`: `do_remove`, and what is appended to `output`. -/
def menuRound (doRemove : Bool) (line : List UInt8) :
    Except Failure (Bool × List (List UInt8)) :=
  let line := stripLine line
  if 0 ∈ line then .error (.valueError "")
  else if isCommand line then
    let (doRemove, output) := if isTitle line then (false, [[0x0a]]) else (doRemove, [])
    if !(doRemove && line == rootHd0) then .ok (doRemove, output ++ [line ++ [0x0a]])
    else .ok (doRemove, output)
  else .ok (doRemove, [])

/-- The loop of `simplify_menu`: what is appended to `output`. -/
def menuLoop (doRemove : Bool) : List (List UInt8) → Except Failure (List (List UInt8))
  | [] => .ok []
  | line :: lines =>
    match menuRound doRemove line with
    | .error e => .error e
    | .ok (doRemove, output) => (menuLoop doRemove lines).map (output ++ ·)

/-- `simplify_menu` -/
def simplifyMenu (menuData : List UInt8) : Except Failure (List UInt8) :=
  (menuLoop true (menuLines menuData)).map List.flatten

/-! ## The loader -/

/-- `data.rfind('\0', 0, end)` -/
def rfindNul (data : List UInt8) : Nat → Option Nat
  | 0 => none
  | n + 1 => if data[n]? = some 0 then some n else rfindNul data n

/-- `patch_menu` -/
def patchMenu (data menuData : List UInt8) : Except Failure (List UInt8) :=
  if data.getLast? ≠ some 0 then .error (.valueError "")
  else if 0 ∈ menuData then .error (.valueError "")
  else
    match rfindNul data (data.length - 1) with
    | none => .error (.valueError "")
    | some i =>
      if ¬ i < data.length - 1 then .error (.assertion "")
      else .ok (data.take (i + 1) ++ menuData ++ [0])

/-! ## What is kept of a menu -/

/-- The lines of a text that are commands, without the white space at their ends. -/
def commands (menuData : List UInt8) : List (List UInt8) :=
  ((menuLines menuData).map stripLine).filter isCommand

/-- Commands without those in front of the first title that set the root to `(hd0)`. -/
def dropRoots (cmds : List (List UInt8)) : List (List UInt8) :=
  (cmds.takeWhile (!isTitle ·)).filter (· ≠ rootHd0) ++ cmds.dropWhile (!isTitle ·)

/-- The lines that are put out for some commands: an empty one in front of each title. -/
def shown (cmds : List (List UInt8)) : List (List UInt8) :=
  cmds.flatMap fun cmd => if isTitle cmd then [[], cmd] else [cmd]

variable {cmd menuData : List UInt8} {cmds lines : List (List UInt8)}

/-- A title ends the search for leading roots. -/
@[simp] theorem dropRoots_title (h : isTitle cmd = true) :
    dropRoots (cmd :: cmds) = cmd :: cmds := by
  simp [dropRoots, h]

/-- A leading `root (hd0)` is left out. -/
@[simp] theorem dropRoots_root (h : isTitle rootHd0 = false) :
    dropRoots (rootHd0 :: cmds) = dropRoots cmds := by
  simp [dropRoots, h]

/-- Any other command in front of the first title stays. -/
@[simp] theorem dropRoots_other (h : isTitle cmd = false) (hroot : cmd ≠ rootHd0) :
    dropRoots (cmd :: cmds) = cmd :: dropRoots cmds := by
  simp [dropRoots, h, hroot]

/-- Leaving commands out keeps the order of the others. -/
theorem dropRoots_sublist (cmds : List (List UInt8)) : (dropRoots cmds).Sublist cmds := by
  have happend := (List.filter_sublist (p := (· ≠ rootHd0))
    (l := cmds.takeWhile (!isTitle ·))).append_right (cmds.dropWhile (!isTitle ·))
  rwa [List.takeWhile_append_dropWhile] at happend

/-- No root is left to be dropped. -/
theorem dropRoots_dropRoots (cmds : List (List UInt8)) :
    dropRoots (dropRoots cmds) = dropRoots cmds := by
  induction cmds with
  | nil => rfl
  | cons cmd cmds ih =>
    by_cases htitle : isTitle cmd = true
    · rw [dropRoots_title htitle, dropRoots_title htitle]
    · rw [Bool.not_eq_true] at htitle
      by_cases hroot : cmd = rootHd0
      · rw [hroot, dropRoots_root (hroot ▸ htitle), ih]
      · rw [dropRoots_other htitle hroot, dropRoots_other htitle hroot, ih]

/-- An empty line is shown in front of each title. -/
theorem shown_cons (cmd : List UInt8) (cmds : List (List UInt8)) :
    shown (cmd :: cmds) = (if isTitle cmd then [[], cmd] else [cmd]) ++ shown cmds := by
  rw [shown, List.flatMap_cons, shown]

/-! ## What the loop puts out -/

/-- What is kept of the commands that are left. -/
def keptFrom (doRemove : Bool) (cmds : List (List UInt8)) : List (List UInt8) :=
  if doRemove then dropRoots cmds else cmds

/-- One round puts its line out as it is put out in front of whatever is left. -/
theorem menuRound_spec {doRemove : Bool} {line : List UInt8} (h : 0 ∉ stripLine line) :
    ∃ next output, menuRound doRemove line = .ok (next, output) ∧
      ∀ cmds, output.flatten ++ unlines 0x0a (shown (keptFrom next cmds)) =
        unlines 0x0a (shown (keptFrom doRemove ([stripLine line].filter isCommand ++ cmds))) := by
  by_cases hcmd : isCommand (stripLine line) = true
  · by_cases htitle : isTitle (stripLine line) = true
    · refine ⟨false, [[0x0a], stripLine line ++ [0x0a]], ?_, fun cmds => ?_⟩
      · simp [menuRound, h, hcmd, htitle]
      · cases doRemove <;> simp [hcmd, htitle, keptFrom, shown_cons, unlines]
    · rw [Bool.not_eq_true] at htitle
      by_cases hdrop : doRemove = true ∧ stripLine line = rootHd0
      · obtain ⟨rfl, hroot⟩ := hdrop
        rw [hroot] at h hcmd htitle
        refine ⟨true, [], ?_, fun cmds => ?_⟩
        · simp [menuRound, hroot, h, hcmd, htitle]
        · simp [hroot, hcmd, htitle, keptFrom]
      · refine ⟨doRemove, [stripLine line ++ [0x0a]], ?_, fun cmds => ?_⟩
        · simp [menuRound, h, hcmd, htitle]
          grind
        · cases doRemove with
          | false => simp [hcmd, htitle, keptFrom, shown_cons, unlines]
          | true =>
            have hroot : stripLine line ≠ rootHd0 := fun hroot => hdrop ⟨rfl, hroot⟩
            simp [hcmd, htitle, hroot, keptFrom, shown_cons, unlines]
  · refine ⟨doRemove, [], ?_, fun cmds => ?_⟩
    · simp [menuRound, h, hcmd]
    · simp [hcmd]

/-- The loop puts out the commands that it keeps. -/
theorem menuLoop_spec {doRemove : Bool} (h : ∀ line ∈ lines, 0 ∉ stripLine line) :
    ∃ output, menuLoop doRemove lines = .ok output ∧ output.flatten =
      unlines 0x0a (shown (keptFrom doRemove ((lines.map stripLine).filter isCommand))) := by
  induction lines generalizing doRemove with
  | nil =>
    refine ⟨[], rfl, ?_⟩
    cases doRemove <;> rfl
  | cons line lines ih =>
    obtain ⟨hline, hlines⟩ := List.forall_mem_cons.mp h
    obtain ⟨next, output, hround, hout⟩ := @menuRound_spec doRemove line hline
    obtain ⟨rest, hrest, hflat⟩ := @ih next hlines
    refine ⟨output ++ rest, ?_, ?_⟩
    · simp only [menuLoop, hround, hrest, Except.map]
    · rw [List.flatten_append, hflat, hout, ← List.filter_append, List.singleton_append,
        List.map_cons]

/-! ## Simplifying a menu -/

/-- A line that `simplify_menu` keeps as it is. -/
structure Plain (line : List UInt8) : Prop where
  trimmed : stripLine line = line
  command : isCommand line = true
  noLf : 0x0a ∉ line
  noCr : 0x0d ∉ line
  noNul : 0 ∉ line

/-- The lines of a text have no line ends, and no NUL if the text has none. -/
theorem mem_menuLines {line : List UInt8} (hline : line ∈ menuLines menuData) :
    0x0a ∉ line ∧ 0x0d ∉ line ∧ (0 ∉ menuData → 0 ∉ line) := by
  obtain ⟨hsep, hmem⟩ := mem_of_mem_splitOn hline
  refine ⟨hsep, fun hin => ?_, fun hnul hin => ?_⟩
  · obtain ⟨c, -, hc⟩ := List.mem_map.mp (hmem _ hin)
    split at hc
    · cases hc
    · next hcr => exact hcr hc
  · obtain ⟨c, hin, hc⟩ := List.mem_map.mp (hmem _ hin)
    split at hc
    · cases hc
    · exact hnul (hc ▸ hin)

/-- The commands of a menu are plain lines. -/
theorem plain_of_mem_commands (hnul : 0 ∉ menuData) (h : cmd ∈ commands menuData) : Plain cmd := by
  obtain ⟨hmem, hcmd⟩ := List.mem_filter.mp h
  obtain ⟨line, hline, rfl⟩ := List.mem_map.mp hmem
  obtain ⟨hlf, hcr, hzero⟩ := mem_menuLines hline
  have hsub : ∀ c, c ∈ stripLine line → c ∈ line := fun c hc =>
    (trimEnds_isInfix isSpaceByte line).subset hc
  exact ⟨trimEnds_trimEnds isSpaceByte line, hcmd, fun h => hlf (hsub _ h), fun h => hcr (hsub _ h),
    fun h => hzero hnul (hsub _ h)⟩

/-- A line that is shown is empty or a command. -/
theorem mem_shown {line : List UInt8} (h : line ∈ shown cmds) : line = [] ∨ line ∈ cmds := by
  obtain ⟨cmd, hcmd, hline⟩ := List.mem_flatMap.mp h
  split at hline
  · rcases List.mem_cons.mp hline with rfl | hline
    · exact Or.inl rfl
    · exact Or.inr (List.mem_singleton.mp hline ▸ hcmd)
  · exact Or.inr (List.mem_singleton.mp hline ▸ hcmd)

/-- What is put out has the characters of the commands, and line feeds. -/
theorem mem_unlines_shown {c : UInt8} (h : c ∈ unlines 0x0a (shown cmds)) :
    c = 0x0a ∨ ∃ cmd ∈ cmds, c ∈ cmd := by
  obtain ⟨line, hline, hc⟩ := List.mem_flatMap.mp h
  rcases List.mem_append.mp hc with hc | hc
  · rcases mem_shown hline with rfl | hcmd
    · exact absurd hc List.not_mem_nil
    · exact Or.inr ⟨line, hcmd, hc⟩
  · exact Or.inl (List.mem_singleton.mp hc)

/-- The lines of the new menu are those that were written. -/
theorem menuLines_unlines (h : ∀ cmd ∈ cmds, Plain cmd) :
    menuLines (unlines 0x0a (shown cmds)) = shown cmds ++ [[]] := by
  have hcr : (unlines 0x0a (shown cmds)).map (fun c => if c = 0x0d then 0x0a else c) =
      unlines 0x0a (shown cmds) := by
    refine (List.map_congr_left fun c hc => if_neg ?_).trans (List.map_id' _)
    rintro rfl
    rcases mem_unlines_shown hc with heq | ⟨cmd, hcmd, hin⟩
    · cases heq
    · exact (h cmd hcmd).noCr hin
  rw [menuLines, hcr]
  apply splitOn_unlines
  intro line hline
  rcases mem_shown hline with rfl | hcmd
  · exact List.not_mem_nil
  · exact (h line hcmd).noLf

/-- Plain lines are read back, whatever blank lines are dropped for. -/
theorem filter_unlines {p : List UInt8 → Bool} (hblank : p [] = false)
    (h : ∀ cmd ∈ cmds, Plain cmd) (hp : ∀ cmd ∈ cmds, p cmd = true) :
    ((menuLines (unlines 0x0a (shown cmds))).map stripLine).filter p = cmds := by
  have hempty : stripLine [] = [] := rfl
  rw [menuLines_unlines h, List.map_append, List.filter_append]
  simp only [List.map_cons, List.map_nil, hempty, List.filter_cons, hblank, Bool.false_eq_true,
    ite_false, List.filter_nil, List.append_nil]
  induction cmds with
  | nil => rfl
  | cons cmd cmds ih =>
    obtain ⟨hcmd, hcmds⟩ := List.forall_mem_cons.mp h
    obtain ⟨hpcmd, hpcmds⟩ := List.forall_mem_cons.mp hp
    rw [shown_cons, List.map_append, List.filter_append, ih hcmds hpcmds]
    split
    · simp [hcmd.trimmed, hempty, hblank, hpcmd]
    · simp [hcmd.trimmed, hpcmd]

/-- What the new menu is. -/
theorem simplifyMenu_eq (hnul : 0 ∉ menuData) :
    simplifyMenu menuData = .ok (unlines 0x0a (shown (dropRoots (commands menuData)))) := by
  have hlines : ∀ line ∈ menuLines menuData, 0 ∉ stripLine line := fun line hline hin =>
    (mem_menuLines hline).2.2 hnul ((trimEnds_isInfix isSpaceByte line).subset hin)
  obtain ⟨output, hrun, hflat⟩ := @menuLoop_spec _ true hlines
  rw [simplifyMenu, hrun, Except.map, hflat]
  rfl

/-- The simplified menu as a text: it has no NUL, has the commands that are kept, in their order
and nothing else, and stays as it is when it is simplified again. -/
structure Simplified (menuData out : List UInt8) : Prop where
  run : simplifyMenu menuData = .ok out
  again : simplifyMenu out = .ok out
  noNul : 0 ∉ out
  lines : ((menuLines out).map stripLine).filter (· ≠ []) = dropRoots (commands menuData)

/-- Every menu without a NUL is simplified. -/
theorem simplifyMenu_simplified (hnul : 0 ∉ menuData) : ∃ out, Simplified menuData out := by
  have hplain : ∀ cmd ∈ dropRoots (commands menuData), Plain cmd := fun cmd hcmd =>
    plain_of_mem_commands hnul ((dropRoots_sublist _).subset hcmd)
  have hout : 0 ∉ unlines 0x0a (shown (dropRoots (commands menuData))) := by
    intro hin
    rcases mem_unlines_shown hin with heq | ⟨cmd, hcmd, hzero⟩
    · cases heq
    · exact (hplain cmd hcmd).noNul hzero
  refine ⟨_, simplifyMenu_eq hnul, ?_, hout, ?_⟩
  · rw [simplifyMenu_eq hout, commands, filter_unlines rfl hplain fun cmd hcmd =>
      (hplain cmd hcmd).command, dropRoots_dropRoots]
  · apply filter_unlines rfl hplain
    intro cmd hcmd
    have hcommand := (hplain cmd hcmd).command
    simp only [isCommand, Bool.and_eq_true] at hcommand
    exact hcommand.1

/-! ## Patching a menu -/

variable {data : List UInt8}

/-- The text between the last two NULs of an image, and everything in front of them. -/
structure Embeds (data front menuData : List UInt8) : Prop where
  data_eq : data = front ++ 0 :: menuData ++ [0]
  noNul : 0 ∉ menuData

/-- The search finds the last NUL. -/
theorem rfindNul_eq {i n : Nat} (hi : data[i]? = some 0) (hin : i < n)
    (hlast : ∀ j, i < j → j < n → data[j]? ≠ some 0) : rfindNul data n = some i := by
  induction n with
  | zero => exact absurd hin (Nat.not_lt_zero i)
  | succ n ih =>
    rw [rfindNul]
    rcases Nat.lt_succ_iff_lt_or_eq.mp hin with hlt | rfl
    · rw [if_neg (hlast n hlt (Nat.lt_succ_self n))]
      exact ih hlt fun j hj hjn => hlast j hj (Nat.lt_succ_of_lt hjn)
    · rw [if_pos hi]

/-- The text is replaced, and nothing else. -/
theorem Embeds.patch {front old : List UInt8} (h : Embeds data front old) (hnul : 0 ∉ menuData) :
    patchMenu data menuData = .ok (front ++ 0 :: menuData ++ [0]) := by
  obtain ⟨rfl, hold⟩ := h
  have hlen : (front ++ 0 :: old ++ [0]).length - 1 = front.length + (old.length + 1) := by
    simp only [List.length_append, List.length_cons, List.length_nil]
    omega
  have hfind : rfindNul (front ++ 0 :: old ++ [0]) (front.length + (old.length + 1)) =
      some front.length := by
    apply rfindNul_eq
    · simp
    · omega
    · intro j hj hjn hzero
      obtain ⟨k, rfl⟩ := Nat.exists_eq_add_of_lt hj
      have hk : old[k]? = some 0 := by
        rw [List.append_assoc, List.getElem?_append_right (by omega)] at hzero
        have hidx : front.length + k + 1 - front.length = k + 1 := by omega
        rw [hidx, List.cons_append, List.getElem?_cons_succ,
          List.getElem?_append_left (by omega)] at hzero
        exact hzero
      exact hold (List.mem_of_getElem? hk)
  have htake : (front ++ 0 :: old ++ [0]).take (front.length + 1) = front ++ [0] := by
    rw [List.append_assoc, List.take_length_add_append]
    rfl
  simp only [patchMenu, List.getLast?_concat, ne_eq, not_true_eq_false, ite_false, if_neg hnul, hlen,
    hfind, htake]
  rw [if_neg (by omega), List.append_assoc front]
  rfl

/-- A loader with a NUL in front of its last one has a menu. -/
theorem exists_embeds (hend : data.getLast? = some 0) (hearlier : 0 ∈ data.dropLast) :
    ∃ front old, Embeds data front old := by
  have hdata : data = data.dropLast ++ [0] := (List.dropLast_append_getLast? 0 hend).symm
  obtain ⟨back, rest, hsplit, hback⟩ := List.eq_append_cons_of_mem (List.mem_reverse.mpr hearlier)
  refine ⟨rest.reverse, back.reverse, ?_, fun hin => hback (List.mem_reverse.mp hin)⟩
  have hrev := congrArg List.reverse hsplit
  rw [List.reverse_reverse, List.reverse_append, List.reverse_cons, List.append_assoc] at hrev
  rw [hdata, hrev]
  rfl

/-- The menu is embedded in place of the text between the last two NULs, and what was embedded
before does not matter. -/
structure Patched (data menuData patched : List UInt8) : Prop where
  run : patchMenu data menuData = .ok patched
  embeds : ∃ front old, Embeds data front old ∧ Embeds patched front menuData
  again : ∀ menu, patchMenu patched menu = patchMenu data menu

/-- A menu without NULs is simplified once and for all, and a loader that has a text between its
last two NULs is patched with it. -/
theorem patchGrldr_laws (data menuData : List UInt8) (hend : data.getLast? = some 0)
    (hearlier : 0 ∈ data.dropLast) (hnul : 0 ∉ menuData) :
    (∃ out, Simplified menuData out) ∧ ∃ patched, Patched data menuData patched := by
  refine ⟨simplifyMenu_simplified hnul, ?_⟩
  obtain ⟨front, old, hdata⟩ := exists_embeds hend hearlier
  have hpatched : Embeds (front ++ 0 :: menuData ++ [0]) front menuData := ⟨rfl, hnul⟩
  refine ⟨_, hdata.patch hnul, ⟨front, old, hdata, hpatched⟩, fun menu => ?_⟩
  by_cases hmenu : 0 ∈ menu
  · simp only [patchMenu, hend, List.getLast?_concat, hmenu, ite_true]
  · rw [hpatched.patch hmenu, hdata.patch hmenu]

/-- The line `root (hd0)`, in front of a title and behind it. -/
def rootMenu : List UInt8 := unlines 0x0a [rootHd0, title ++ [0x20, 0x41], rootHd0]

/-- A loader with the text `A`. -/
theorem patchGrldr_laws_rootMenu :
    (∃ out, Simplified rootMenu out) ∧ ∃ patched, Patched [0xea, 0, 0x41, 0] rootMenu patched :=
  patchGrldr_laws [0xea, 0, 0x41, 0] rootMenu rfl (by decide) (by decide)

example : simplifyMenu rootMenu =
    .ok (unlines 0x0a [[], title ++ [0x20, 0x41], rootHd0]) := by
  decide

end Liigboot.Tools
