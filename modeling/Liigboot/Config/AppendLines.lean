import Liigboot.Config.AppendText

/-!
# The lines of append statements

Whether all append texts fit can be told from the lines of a configuration, as long as no name of a
kernel overruns its field: the lengths in memory are those that the lines say.
-/

namespace Liigboot.Config

variable {mg : Mangler} {p : Parse}

/-- What the statements say so far: the length of the append text of the label, if there is one, and
of the global section, and the name of the initrd. -/
structure Lengths where
  label : Option Nat
  global : Nat
  initrd : CText

/-- The length of an append text in a label, where a single `-` stands for none. -/
def labelLength (line : List UInt8) : Nat :=
  if line.length = 2 ∧ line.head? = some 0x2D then 0 else line.length

def Lengths.step (mg : Mangler) (t : Lengths) : Directive → Lengths
  | .append input =>
    if t.label.isSome then { t with label := some (labelLength (normalForm (currentLine input))) }
    else { t with global := (normalForm (currentLine input)).length }
  | .label _ => ⟨some t.global, t.global, CText.empty⟩
  | .kernel _ _ => t
  | .localboot _ => t
  | .initrd input behind => { t with initrd := initrdName mg input behind }

/-- The text of the label fits with its initrd argument. -/
def Lengths.CommitFits (t : Lengths) : Prop :=
  ∀ n ∈ t.label, n + (initrdArg t.initrd.text).length ≤ maxCmdLen + 1

/-- Each line of an `append` statement fits, and each text that is committed. -/
def Lengths.Fits (mg : Mangler) : List Directive → Lengths → Prop
  | [], t => t.CommitFits
  | .append input :: ds, t => (normalForm (currentLine input)).length ≤ maxCmdLen + 1 ∧
      Lengths.Fits mg ds (t.step mg (.append input))
  | .label input :: ds, t => t.CommitFits ∧ Lengths.Fits mg ds (t.step mg (.label input))
  | d :: ds, t => Lengths.Fits mg ds (t.step mg d)

/-- Each name of a kernel fits in `vk_rname`. -/
def ShortNames (mg : Mangler) (ds : List Directive) : Prop :=
  ∀ al input, .kernel al input ∈ ds →
    (mg.mangle (normalForm (currentLine input))).length ≤ filenameMax

/-- The variables have what the statements say. -/
structure Says (p : Parse) (t : Lengths) : Prop where
  vkernel : p.vkernel = t.label.isSome
  appendLen : p.appendLen = UInt16.ofNat t.global
  global_le : t.global ≤ maxCmdLen + 1
  initrd : p.initrd = t.initrd
  label : ∀ n ∈ t.label, n ≤ maxCmdLen + 1 ∧ wordAt p.seg vkAppendlen = UInt16.ofNat n

/-- A word that was stored is read back. -/
theorem wordAt_wordStores (mem : Nat → UInt8) (a : Nat) (v : UInt16) :
    wordAt (putAll mem (wordStores a v)) a = v := by
  have hlo : putAll mem (wordStores a v) a = v.toUInt8 :=
    (put_of_ne _ (Nat.ne_of_lt (Nat.lt_succ_self a))).trans (put_self a _)
  have hhi : putAll mem (wordStores a v) (a + 1) = (v >>> 8).toUInt8 := put_self (a + 1) _
  have hlt := v.toNat_lt
  have hshift : (v >>> 8).toNat = v.toNat / 256 := by
    rw [UInt16.toNat_shiftRight, Nat.shiftRight_eq_div_pow]
    rfl
  apply UInt16.toNat_inj.mp
  rw [wordAt, hlo, hhi, UInt16.toNat_toUInt8, UInt16.toNat_toUInt8, hshift, UInt16.toNat_ofNat']
  omega

/-- Stores elsewhere leave a word. -/
theorem wordAt_of_ne {mem : Nat → UInt8} {stores : List (Nat × UInt8)} {a : Nat}
    (h : ∀ x ∈ stores, x.1 ≠ a ∧ x.1 ≠ a + 1) : wordAt (putAll mem stores) a = wordAt mem a := by
  rw [wordAt, wordAt, putAll_of_ne fun x hx => (h x hx).1, putAll_of_ne fun x hx => (h x hx).2]

/-- Stores into another part of the buffer leave the word. -/
theorem wordAt_of_inside {mem : Nat → UInt8} {stores : List (Nat × UInt8)} {a lo hi : Nat}
    (h : Inside lo hi stores) (hout : hi ≤ a ∨ a + 2 ≤ lo) :
    wordAt (putAll mem stores) a = wordAt mem a := by
  refine wordAt_of_ne fun x hx => ?_
  have hin := h x hx
  omega

/-- The lengths say if the next commit fits. -/
theorem Says.commitFits {t : Lengths} (h : Says p t) : p.CommitFits ↔ t.CommitFits := by
  rw [Parse.CommitFits, Lengths.CommitFits, h.vkernel]
  cases hlabel : t.label with
  | none =>
    refine iff_of_true (fun hv => absurd hv Bool.false_ne_true) fun n hn => ?_
    exact absurd hn (Option.not_mem_none n)
  | some n =>
    obtain ⟨hn, hword⟩ := h.label n hlabel
    have hsize : vkSize = vkAppend + (maxCmdLen + 1) := rfl
    have hlt : vkAppend + (maxCmdLen + 1) < 2 ^ 16 := by decide
    have hend : p.textEnd = vkAppend + n + (initrdArg t.initrd.text).length := by
      rw [Parse.textEnd, hword, ← UInt16.ofNat_add, h.initrd, UInt16.toNat_ofNat_of_lt'
        (show vkAppend + n < 2 ^ 16 by omega)]
    rw [hend, hsize]
    constructor
    · intro hfits m hm
      obtain rfl := Option.some.inj hm
      have hle := (hfits rfl).2
      omega
    · intro hfits _
      have hle := hfits n rfl
      omega

/-- A label is not longer than its line. -/
theorem labelLength_le (line : List UInt8) : labelLength line ≤ line.length := by
  rw [labelLength]
  split_ifs
  · exact Nat.zero_le _
  · exact le_rfl

/-- The test for `append -` finds such a line. -/
theorem append_dash {line : List UInt8} (hlen : line.length ≤ maxCmdLen + 1)
    (seg : Nat → UInt8) :
    (UInt16.ofNat line.length = 2 ∧
        putAll seg ((Writer.at (UInt16.ofNat vkAppend)).movsb line).stores vkAppend = 0x2D) ↔
      line.length = 2 ∧ line.head? = some 0x2D := by
  have hmax : maxCmdLen = 2047 := rfl
  have htwo : UInt16.ofNat line.length = 2 ↔ line.length = 2 := by
    rw [← UInt16.toNat_inj, UInt16.toNat_ofNat_of_lt' (show line.length < 2 ^ 16 by omega)]
    rfl
  rw [htwo]
  refine and_congr_right fun hlen => ?_
  cases line with
  | nil => cases hlen
  | cons a line =>
    have hbuilt := (Built.at seg (UInt16.ofNat vkAppend)).movsb (a :: line)
    rw [List.nil_append] at hbuilt
    have hfirst := (holds_cons.mp (hbuilt.holds (by rw [hlen]; decide))).1
    change putAll seg _ vkAppend = a at hfirst
    rw [hfirst, List.head?_cons, Option.some_inj]

/-- An append line sets its length. -/
theorem Says.pcAppend {t : Lengths} (h : Says p t) {input : List UInt8}
    (hfits : (normalForm (currentLine input)).length ≤ maxCmdLen + 1) :
    Says (p.pcAppend input) (t.step mg (.append input)) := by
  rw [Parse.pcAppend, Lengths.step, h.vkernel, getline_stored]
  by_cases hlabel : t.label.isSome = true
  · rw [if_pos hlabel, if_pos hlabel]
    refine ⟨h.vkernel.trans hlabel, h.appendLen, h.global_le, h.initrd, fun n hn => ?_⟩
    obtain rfl := Option.some.inj hn
    refine ⟨(labelLength_le _).trans hfits, ?_⟩
    dsimp only [Parse.emit]
    rw [putAll_append, wordAt_wordStores, append_di, labelLength]
    by_cases hdash : (normalForm (currentLine input)).length = 2 ∧
        (normalForm (currentLine input)).head? = some 0x2D
    · rw [if_pos hdash, if_pos ((append_dash hfits p.seg).mpr hdash)]
      rfl
    · rw [if_neg hdash, if_neg fun h => hdash ((append_dash hfits p.seg).mp h)]
  · rw [if_neg hlabel, if_neg hlabel]
    refine ⟨h.vkernel, append_di _ _, hfits, h.initrd, fun n hn => ?_⟩
    exact absurd (Option.isSome_of_mem hn) hlabel

/-- The length of a new label is stored, and its text behind it. -/
theorem Says.pcLabel {t : Lengths} (h : Says p t) (input : List UInt8) :
    Says (p.pcLabel mg input) (t.step mg (.label input)) := by
  have hmax : maxCmdLen = 2047 := rfl
  have hlen : p.commitVk.appendLen = UInt16.ofNat t.global :=
    Parse.appendLen_commitVk.trans h.appendLen
  have hnat : p.commitVk.appendLen.toNat = t.global := by
    have hle := h.global_le
    rw [hlen]
    exact UInt16.toNat_ofNat_of_lt' (show t.global < 2 ^ 16 by omega)
  have htext := (append_inside_iff (le_refl vkAppend) (show vkSize = _ from rfl) (by decide)
    ((List.range p.commitVk.appendLen.toNat).map fun i => p.commitVk.seg (appendBuf + i))).mpr (by
      rw [List.length_map, List.length_range, hnat]
      exact h.global_le)
  rw [Parse.pcLabel, Parse.newLabel, Lengths.step]
  dsimp only [Parse.emit]
  refine ⟨Option.isSome_some.symm, hlen, h.global_le, rfl, fun n hn => ?_⟩
  obtain rfl := Option.some.inj hn
  refine ⟨h.global_le, ?_⟩
  dsimp only
  rw [putAll_append, wordAt_of_inside htext (Or.inr (show vkAppendlen + 2 ≤ vkAppend by decide)),
    putAll_append, wordAt_wordStores, hlen]

/-- A kernel line leaves the lengths. -/
theorem Says.pcKernel {t : Lengths} (h : Says p t) {input : List UInt8} (al : UInt8)
    (hname : (mg.mangle (normalForm (currentLine input))).length ≤ filenameMax) :
    Says (p.pcKernel mg al input) t := by
  rw [Parse.pcKernel, getline_stored]
  split_ifs
  · refine ⟨h.vkernel, h.appendLen, h.global_le, h.initrd, fun n hn => ?_⟩
    obtain ⟨hle, hword⟩ := h.label n hn
    have htype := inside_type al le_rfl le_rfl
    have hrname : Inside vkRname vkAppendlen
        (storesAt vkRname (mg.mangle (normalForm (currentLine input)))) :=
      (inside_storesAt_iff le_rfl (by decide)).mpr (Nat.add_le_add_left hname vkRname)
    refine ⟨hle, ?_⟩
    dsimp only [Parse.emit]
    rw [putAll_append, wordAt_of_inside hrname (Or.inl le_rfl),
      wordAt_of_inside htype (Or.inr le_rfl), hword]
  · exact h

/-- A localboot line leaves the lengths. -/
theorem Says.pcLocalboot {t : Lengths} (h : Says p t) (bx : UInt16) :
    Says (p.pcLocalboot bx) t := by
  rw [Parse.pcLocalboot]
  split_ifs
  · refine ⟨h.vkernel, h.appendLen, h.global_le, h.initrd, fun n hn => ?_⟩
    obtain ⟨hle, hword⟩ := h.label n hn
    have htype := inside_type 0xFF le_rfl le_rfl
    have hrname : Inside vkRname vkAppendlen (wordStores vkRname bx) :=
      inside_wordStores bx le_rfl (by decide)
    refine ⟨hle, ?_⟩
    dsimp only [Parse.emit]
    rw [putAll_append, wordAt_of_inside htype (Or.inr le_rfl),
      wordAt_of_inside hrname (Or.inl le_rfl), hword]
  · exact h

/-- With short names, a configuration fits exactly when its lines do. -/
theorem Says.fits_iff {t : Lengths} {ds : List Directive} (h : Says p t)
    (hnames : ShortNames mg ds) : Parse.Fits mg ds p ↔ Lengths.Fits mg ds t := by
  induction ds generalizing p t with
  | nil => exact h.commitFits
  | cons d ds ih =>
    have hrest : ShortNames mg ds := fun al input hmem =>
      hnames al input (List.mem_cons_of_mem d hmem)
    cases d with
    | append input => exact and_congr_right fun hfits => ih (h.pcAppend hfits) hrest
    | label input =>
      exact and_congr h.commitFits (ih (h.pcLabel input) hrest)
    | kernel al input =>
      have hname := hnames al input List.mem_cons_self
      refine (and_iff_right fun _ => ?_).trans (ih (h.pcKernel al hname) hrest)
      exact (Nat.add_le_add_left hname vkRname).trans (by decide)
    | localboot bx => exact (and_iff_right trivial).trans (ih (h.pcLocalboot bx) hrest)
    | initrd input behind =>
      refine (and_iff_right trivial).trans (ih ⟨h.vkernel, h.appendLen, h.global_le, rfl, h.label⟩
        hrest)

/-- With short names, everything stays in its bounds exactly when each `append` line has at most
2048 bytes, and each text that is committed with its `initrd` argument. -/
theorem parse_config_lines (mem : Nat → UInt8) (initrd : CText) {ds : List Directive}
    (hnames : ShortNames mg ds) :
    (Parse.run mg ds (Parse.start mem initrd)).Bounded ↔
      Lengths.Fits mg ds ⟨none, 0, initrd⟩ := by
  have hstart : Says (Parse.start mem initrd) ⟨none, 0, initrd⟩ :=
    ⟨rfl, rfl, Nat.zero_le _, rfl, fun n hn => nomatch hn⟩
  exact (Parse.bounded_run_start mem initrd ds).trans (hstart.fits_iff hnames)

end Liigboot.Config
