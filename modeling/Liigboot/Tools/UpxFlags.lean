import Liigboot.Tools.Elf32
import Mathlib.Data.List.DropRight
import Mathlib.Data.List.Infix

/-!
# Flags for UPX

`get_upx_method_flags` of `upxbc` normalises a list of flags, and makes the method explicit that
UPX would choose. Callers normalise twice. Some of the flags that the first pass adds are refused
by the second, which takes them as the user's.
-/

namespace Liigboot.Tools

/-! ## Names of flags -/

/-- `UPX_NONLZMA_EFFORT_METHOD_FLAGS` -/
def upxNonlzmaEffortMethodFlags : List String :=
  ["--best", "-1", "-2", "-3", "-4", "-5", "-6", "-7", "-8", "-9"]

/-- `UPX_EFFORT_METHOD_FLAGS` -/
def upxEffortMethodFlags : List String :=
  upxNonlzmaEffortMethodFlags ++ ["--brute", "--ultra-brute"]

/-- `UPX_NRV_METHOD_FLAGS` -/
def upxNrvMethodFlags : List String := ["--nrv2b", "--nrv2d", "--nrv2e"]

/-- `flag.strip('-')` -/
def strip (flag : String) : String :=
  String.ofList ((flag.toList.dropWhile (· == '-')).rdropWhile (· == '-'))

/-- One dash in front of a flag that is part of `'123456789'`, else two. -/
def dashed (flag : String) : String :=
  if flag.toList <:+: "123456789".toList then "-" ++ flag else "--" ++ flag

/-- The flags with the dashes that they should have; those without a name are dropped. -/
def normFlags (method : List String) : List String :=
  ((method.map strip).filter (· ≠ "")).map dashed

/-- The argument `method`. -/
inductive Method
  | str (method : String)
  | list (method : List String)

/-- White space for `split`. -/
def isSpace (c : Char) : Bool :=
  c == ' ' || c == '\t' || c == '\n' || c == '\r' || c == '\x0b' || c == '\x0c'

/-- A string is split at its commas and white space. -/
def Method.flags : Method → List String
  | .str method =>
    (((method.toList.map fun c => if c = ',' then ' ' else c).splitOnP isSpace).filter
      (· ≠ [])).map String.ofList
  | .list method => method

/-! ## The choice of the method -/

/-- `has_effort` -/
def hasEffort (method : List String) : Bool := method.any (· ∈ upxEffortMethodFlags)

/-- `has_nonlzma_effort` -/
def hasNonlzmaEffort (method : List String) : Bool := method.any (· ∈ upxNonlzmaEffortMethodFlags)

/-- `has_nrv` -/
def hasNrv (method : List String) : Bool := method.any (· ∈ upxNrvMethodFlags)

/-- `'--brute' in method or '--ultra-brute' in method` -/
def hasBrute (method : List String) : Prop := "--brute" ∈ method ∨ "--ultra-brute" ∈ method

instance decidableHasBrute (method : List String) : Decidable (hasBrute method) :=
  inferInstanceAs (Decidable (_ ∨ _))

/-- The flags that choose a method, in order. -/
def choosingFlags : List String := ["--lzma", "--none", "--nrv2b", "--nrv2d", "--nrv2e"]

/-- `sorted(method_flags)` -/
def methodFlags (method : List String) : List String := choosingFlags.filter (· ∈ method)

/-- The flags that are put in front, when `--none` is not there. -/
def insertFlags (method : List String) (doAdd : Bool) : Except Failure (List String) :=
  if "--no-lzma" ∈ method then
    if "--lzma" ∈ method then .error (.valueError "Both --lzma and --no-lzma was specified.")
    else if hasEffort method then .ok method
    else .ok ("--ultra-brute" :: method)
  else if "--lzma" ∈ method then
    if hasNonlzmaEffort method then
      .error (.valueError ("If you want LZMA-only output, specify --lzma without --best or -<n>" ++
        "; you get LZMA-or-others by default."))
    else if hasEffort method then .ok method
    else .ok ("--best" :: method)
  else if !hasEffort method then
    if hasNrv method then .ok ("--best" :: "--no-lzma" :: method)
    else if doAdd then .ok ("--ultra-brute" :: "--lzma" :: method)
    else .ok ("--ultra-brute" :: "--no-lzma" :: method)
  else if hasNonlzmaEffort method then .ok ("--no-lzma" :: method)
  else if hasNrv method then
    .error (.valueError
      "--brute or --ultra-brute would shadow --nrv... ; specify --best instead.")
  else if doAdd then .ok ("--lzma" :: method)
  else .ok ("--no-lzma" :: method)

/-- The assertion at the end. -/
def assertLzma (method : List String) : Except Failure (List String) :=
  if "--lzma" ∈ method ↔ "--no-lzma" ∈ method then .error (.assertion "") else .ok method

/-- The choice, for flags with the right dashes. -/
def chooseFlags (method : List String) (doAdd : Bool) : Except Failure (List String) :=
  if 1 < (methodFlags method).length then
    .error (.valueError ("Multiple method flags specified: " ++
      " ".intercalate (methodFlags method)))
  else if methodFlags method ≠ [] ∧ hasBrute method then
    .error (.valueError ("Method flags not compatible with --*brute: " ++
      " ".intercalate (methodFlags method)))
  else if "--none" ∈ method then
    if method.filter (· ∉ ["--none", "--no-filter", "--small", "--bad-ratio-ok"]) ≠ [] then
      .error (.valueError "--none must be specified alone.")
    else .ok ["--none", "--no-lzma"]
  else
    match insertFlags method doAdd with
    | .error e => .error e
    | .ok method => assertLzma method

/-- `get_upx_method_flags` -/
def getUpxMethodFlags (method : Method) (doAdd : Bool) : Except Failure (List String) :=
  chooseFlags (normFlags method.flags) doAdd

/-- The assertions behind the function. -/
example : getUpxMethodFlags (.str "") true = .ok ["--ultra-brute", "--lzma"] ∧
    getUpxMethodFlags (.str "--lzma") true = .ok ["--best", "--lzma"] ∧
    getUpxMethodFlags (.str "--nrv2b") true = .ok ["--best", "--no-lzma", "--nrv2b"] ∧
    getUpxMethodFlags (.str "--no-lzma") true = .ok ["--ultra-brute", "--no-lzma"] := by
  decide +kernel

/-! ## Flags that stay -/

variable {method r : List String} {flag : String} {doAdd : Bool}

/-- A flag that already has the dashes that it should have. -/
def IsNormal (flag : String) : Prop := strip flag ≠ "" ∧ dashed (strip flag) = flag

instance decidableIsNormal (flag : String) : Decidable (IsNormal flag) :=
  inferInstanceAs (Decidable (_ ∧ _))

private theorem dropWhile_dashes {n : Nat} {cs : List Char} (h : cs.head? ≠ some '-') :
    (List.replicate n '-' ++ cs).dropWhile (· == '-') = cs := by
  induction n with
  | zero =>
    cases cs with
    | nil => rfl
    | cons c cs =>
      have hc : (c == '-') = false := beq_eq_false_iff_ne.mpr fun heq => h (by rw [heq]; rfl)
      exact List.dropWhile_cons_of_neg (by rw [hc]; decide)
  | succ n ih => exact ih

/-- A stripped flag begins with no dash and ends with none. -/
private theorem strip_ends (flag : String) : (strip flag).toList.head? ≠ some '-' ∧
    (strip flag).toList.rdropWhile (· == '-') = (strip flag).toList := by
  rw [strip, String.toList_ofList]
  refine ⟨fun hhead => ?_, List.rdropWhile_idempotent ..⟩
  obtain ⟨rest, hrest⟩ := List.rdropWhile_prefix (· == '-') (flag.toList.dropWhile (· == '-'))
  have hfirst : (flag.toList.dropWhile (· == '-')).head? = some '-' := by
    rw [← hrest, List.head?_append, hhead, Option.some_or]
  have hnot := List.head?_dropWhile_not (· == '-') flag.toList
  rw [hfirst] at hnot
  exact absurd hnot (by decide)

/-- Dashes put in front of a stripped flag are stripped again. -/
private theorem strip_dashes (flag : String) (n : Nat) :
    strip (String.ofList (List.replicate n '-' ++ (strip flag).toList)) = strip flag := by
  obtain ⟨hhead, hlast⟩ := strip_ends flag
  generalize strip flag = name at *
  rw [strip, String.toList_ofList, dropWhile_dashes hhead, hlast, String.ofList_toList]

/-- A flag with its dashes put in front is normal. -/
theorem isNormal_dashed (h : strip flag ≠ "") : IsNormal (dashed (strip flag)) := by
  have hstrip : strip (dashed (strip flag)) = strip flag := by
    rw [dashed]
    split
    · have hone := strip_dashes flag 1
      rwa [String.ofList_append, String.ofList_toList] at hone
    · have htwo := strip_dashes flag 2
      rwa [String.ofList_append, String.ofList_toList] at htwo
  exact ⟨by rwa [hstrip], by rw [hstrip]⟩

/-- The flags of the first pass need no more dashes. -/
theorem isNormal_of_mem_normFlags (h : flag ∈ normFlags method) : IsNormal flag := by
  obtain ⟨name, hname, rfl⟩ := List.mem_map.mp h
  obtain ⟨hmem, hne⟩ := List.mem_filter.mp hname
  obtain ⟨raw, -, rfl⟩ := List.mem_map.mp hmem
  exact isNormal_dashed (of_decide_eq_true hne)

/-- Normal flags stay as they are. -/
theorem normFlags_of_isNormal (h : ∀ flag ∈ method, IsNormal flag) : normFlags method = method := by
  induction method with
  | nil => rfl
  | cons flag method ih =>
    obtain ⟨hne, hdash⟩ := h flag List.mem_cons_self
    have hrest := ih fun f hf => h f (List.mem_cons_of_mem flag hf)
    have hkeep : decide (strip flag ≠ "") = true := decide_eq_true hne
    rw [normFlags, List.map_cons, List.filter_cons, hkeep, if_pos rfl, List.map_cons, hdash]
    exact congrArg (flag :: ·) hrest

/-! ## The second pass -/

/-- The flags have passed the checks in front of the choice, and `--none` is not there. -/
structure Checked (method : List String) : Prop where
  few : (methodFlags method).length ≤ 1
  brute : methodFlags method ≠ [] → ¬ hasBrute method
  none_notMem : "--none" ∉ method

/-- Checked flags only get the missing ones. -/
theorem chooseFlags_of_checked (h : Checked method) : chooseFlags method doAdd =
    match insertFlags method doAdd with
    | .error e => .error e
    | .ok method => assertLzma method := by
  rw [chooseFlags, if_neg (Nat.not_lt.mpr h.few), if_neg fun hb => h.brute hb.1 hb.2,
    if_neg h.none_notMem]

/-- An accepted list is `--none`, or gets the flags of the choice. -/
theorem chooseFlags_ok (h : chooseFlags method doAdd = .ok r) :
    ("--none" ∈ method ∧ r = ["--none", "--no-lzma"]) ∨
      (Checked method ∧ insertFlags method doAdd = .ok r) := by
  rw [chooseFlags] at h
  split at h
  · cases h
  next hfew =>
  split at h
  · cases h
  next hbrute =>
  split at h
  · next hnone =>
    split at h
    · cases h
    · cases h
      exact Or.inl ⟨hnone, rfl⟩
  · next hnone =>
    refine Or.inr ⟨⟨Nat.le_of_not_lt hfew, fun hm hb => hbrute ⟨hm, hb⟩, hnone⟩, ?_⟩
    cases hi : insertFlags method doAdd with
    | error e =>
      rw [hi] at h
      cases h
    | ok m =>
      rw [hi] at h
      simp only [assertLzma] at h
      split at h
      · cases h
      · exact h

/-- A second pass is accepted, with flags that say the same. -/
def Again (r : List String) (doAdd : Bool) : Prop :=
  ∃ out, chooseFlags r doAdd = .ok out ∧ ∀ flag, flag ∈ out ↔ flag ∈ r

/-- An explicit `--no-lzma` and an effort are left as they are. -/
theorem again_of_noLzma (h : Checked r) (hno : "--no-lzma" ∈ r) (hlzma : "--lzma" ∉ r)
    (heffort : hasEffort r = true) : Again r doAdd := by
  refine ⟨r, ?_, fun _ => Iff.rfl⟩
  rw [chooseFlags_of_checked h, insertFlags, if_pos hno, if_neg hlzma, if_pos heffort]
  exact if_neg fun hiff => hlzma (hiff.mpr hno)

/-- `--brute` goes with no flag that chooses a method. -/
theorem not_again_of_brute (hflags : methodFlags r ≠ []) (hbrute : hasBrute r) :
    ¬ Again r doAdd := by
  rintro ⟨out, h, -⟩
  rw [chooseFlags] at h
  split at h
  · cases h
  · rw [if_pos ⟨hflags, hbrute⟩] at h
    cases h

/-- `--lzma` goes with no other effort. -/
theorem not_again_of_best (hnone : "--none" ∉ r) (hlzma : "--lzma" ∈ r)
    (hbest : hasNonlzmaEffort r = true) : ¬ Again r doAdd := by
  rintro ⟨out, h, -⟩
  rcases chooseFlags_ok h with ⟨hin, -⟩ | ⟨-, h⟩
  · exact hnone hin
  · rw [insertFlags] at h
    split at h
    · cases h
    · cases h

/-! ## Flags in front of a list -/

/-- A flag that does not choose a method adds none. -/
theorem methodFlags_cons_of_notMem (h : flag ∉ choosingFlags) :
    methodFlags (flag :: method) = methodFlags method := by
  refine List.filter_congr fun f hf => ?_
  have hne : f ≠ flag := fun heq => h (heq ▸ hf)
  simp only [List.mem_cons, hne, false_or]

theorem methodFlags_ne_nil (hchoose : flag ∈ choosingFlags) (h : flag ∈ method) :
    methodFlags method ≠ [] :=
  List.ne_nil_of_mem (List.mem_filter.mpr ⟨hchoose, decide_eq_true h⟩)

/-- An NRV flag chooses a method. -/
theorem methodFlags_ne_nil_of_hasNrv (h : hasNrv method = true) : methodFlags method ≠ [] := by
  obtain ⟨flag, hmem, hnrv⟩ := List.any_eq_true.mp h
  refine methodFlags_ne_nil ?_ hmem
  have hsub : upxNrvMethodFlags ⊆ choosingFlags := by decide
  exact hsub (of_decide_eq_true hnrv)

theorem methodFlags_eq_nil (hlzma : "--lzma" ∉ method) (hnone : "--none" ∉ method)
    (hnrv : hasNrv method = false) : methodFlags method = [] := by
  refine List.filter_eq_nil_iff.mpr fun flag hflag hin => ?_
  have hmem := of_decide_eq_true hin
  have hno : flag ∉ upxNrvMethodFlags := fun hn => by
    have := List.any_eq_false.mp hnrv flag hmem
    exact this (decide_eq_true hn)
  have hcases : flag = "--lzma" ∨ flag = "--none" ∨ flag ∈ upxNrvMethodFlags := by
    simpa [choosingFlags, upxNrvMethodFlags] using hflag
  rcases hcases with rfl | rfl | h
  · exact hlzma hmem
  · exact hnone hmem
  · exact hno h

/-- A flag that does not choose a method brings no `--none` in. -/
theorem Checked.none_notMem_cons (h : Checked method) (hchoose : flag ∉ choosingFlags) :
    "--none" ∉ flag :: method := by
  intro hin
  rcases List.mem_cons.mp hin with rfl | hin
  · exact hchoose (by decide)
  · exact h.none_notMem hin

/-- A flag in front that chooses nothing and is not `--brute` leaves the checks. -/
theorem Checked.cons (h : Checked method) (hchoose : flag ∉ choosingFlags)
    (hbrute : flag ≠ "--brute" ∧ flag ≠ "--ultra-brute") : Checked (flag :: method) := by
  have hsame := @methodFlags_cons_of_notMem method flag hchoose
  refine ⟨hsame ▸ h.few, fun hm hb => h.brute (hsame ▸ hm) ?_, h.none_notMem_cons hchoose⟩
  rcases hb with hb | hb
  · exact Or.inl ((List.mem_cons.mp hb).resolve_left hbrute.1.symm)
  · exact Or.inr ((List.mem_cons.mp hb).resolve_left hbrute.2.symm)

/-- Where no flag chooses a method, any other flag may be put in front. -/
theorem Checked.cons_of_nil (h : Checked method) (hnil : methodFlags method = [])
    (hchoose : flag ∉ choosingFlags) : Checked (flag :: method) := by
  have hsame := (@methodFlags_cons_of_notMem method flag hchoose).trans hnil
  exact ⟨by rw [hsame]; decide, fun hm => absurd hsame hm, h.none_notMem_cons hchoose⟩

/-- An effort for NRV is an effort. -/
theorem hasEffort_of_hasNonlzmaEffort (h : hasNonlzmaEffort method = true) :
    hasEffort method = true := by
  obtain ⟨flag, hmem, hin⟩ := List.any_eq_true.mp h
  exact List.any_eq_true.mpr
    ⟨flag, hmem, decide_eq_true (List.mem_append_left _ (of_decide_eq_true hin))⟩

/-- An effort is one of UPX itself, or `--brute`. -/
theorem hasBrute_of_hasEffort (h : hasEffort method = true)
    (hnonlzma : hasNonlzmaEffort method = false) : hasBrute method := by
  obtain ⟨flag, hmem, hin⟩ := List.any_eq_true.mp h
  rcases List.mem_append.mp (of_decide_eq_true hin) with hin | hin
  · exact absurd (decide_eq_true hin) (List.any_eq_false.mp hnonlzma flag hmem)
  · rcases List.mem_cons.mp hin with rfl | hin
    · exact Or.inl hmem
    · obtain rfl := List.mem_singleton.mp hin
      exact Or.inr hmem

/-! ## When a second pass is accepted -/

/-- The flags choose neither `--none` nor LZMA, and nothing that is put in front of them does. -/
def Settled (method : List String) (doAdd : Bool) : Prop :=
  "--none" ∉ method ∧ "--lzma" ∉ method ∧
    ("--no-lzma" ∈ method ∧ (hasEffort method = true ∨ hasNrv method = false) ∨
      "--no-lzma" ∉ method ∧
        (hasNonlzmaEffort method = true ∨ hasNrv method = true ∨ doAdd = false))

/-- An explicit `--no-lzma`: an effort is put in front, which an `--nrv` flag does not allow. -/
private theorem again_iff_of_noLzma (hm : Checked method) (hno : "--no-lzma" ∈ method)
    (h : insertFlags method doAdd = .ok r) : Again r doAdd ↔ Settled method doAdd := by
  have hnone := hm.none_notMem
  rw [insertFlags, if_pos hno] at h
  by_cases hlzma : "--lzma" ∈ method
  · rw [if_pos hlzma] at h
    cases h
  rw [if_neg hlzma] at h
  cases heffort : hasEffort method with
  | true =>
    rw [heffort] at h
    cases h
    exact iff_of_true (again_of_noLzma hm hno hlzma heffort)
      ⟨hnone, hlzma, Or.inl ⟨hno, Or.inl heffort⟩⟩
  | false =>
    rw [heffort] at h
    cases h
    cases hnrv : hasNrv method with
    | true =>
      refine iff_of_false (not_again_of_brute ?_ (Or.inr List.mem_cons_self)) ?_
      · rw [methodFlags_cons_of_notMem (by decide)]
        exact methodFlags_ne_nil_of_hasNrv hnrv
      · rintro ⟨-, -, ⟨-, h⟩ | ⟨h, -⟩⟩
        · rw [heffort, hnrv] at h
          exact absurd h (by decide)
        · exact h hno
    | false =>
      have hnil := methodFlags_eq_nil hlzma hnone hnrv
      refine iff_of_true (again_of_noLzma (hm.cons_of_nil hnil (by decide))
        (List.mem_cons_of_mem _ hno) ?_ (by simp [hasEffort, upxEffortMethodFlags]))
        ⟨hnone, hlzma, Or.inl ⟨hno, Or.inr hnrv⟩⟩
      simp [hlzma]

/-- An explicit `--lzma`: the `--best` that is put in front is refused. -/
private theorem again_iff_of_lzma (hm : Checked method) (hno : "--no-lzma" ∉ method)
    (hlzma : "--lzma" ∈ method) (h : insertFlags method doAdd = .ok r) :
    Again r doAdd ↔ Settled method doAdd := by
  have hunsettled : ¬ Settled method doAdd := fun hs => hs.2.1 hlzma
  rw [insertFlags, if_neg hno, if_pos hlzma] at h
  cases hnonlzma : hasNonlzmaEffort method with
  | true =>
    rw [hnonlzma] at h
    cases h
  | false =>
    cases heffort : hasEffort method with
    | true =>
      exact absurd (hasBrute_of_hasEffort heffort hnonlzma)
        (hm.brute (methodFlags_ne_nil (by decide) hlzma))
    | false =>
      rw [hnonlzma, heffort] at h
      cases h
      refine iff_of_false (not_again_of_best (hm.none_notMem_cons (by decide))
        (List.mem_cons_of_mem _ hlzma) ?_) hunsettled
      simp [hasNonlzmaEffort, upxNonlzmaEffortMethodFlags]

/-- Neither of them: LZMA is refused together with the effort that goes with it. -/
private theorem again_iff_of_neither (hm : Checked method) (hno : "--no-lzma" ∉ method)
    (hlzma : "--lzma" ∉ method) (h : insertFlags method doAdd = .ok r) :
    Again r doAdd ↔ Settled method doAdd := by
  have hnone := hm.none_notMem
  have hsettled : hasNonlzmaEffort method = true ∨ hasNrv method = true ∨ doAdd = false →
      Settled method doAdd := fun hd => ⟨hnone, hlzma, Or.inr ⟨hno, hd⟩⟩
  have hunsettled : hasNonlzmaEffort method = false → hasNrv method = false → doAdd = true →
      ¬ Settled method doAdd := by
    rintro h1 h2 h3 ⟨-, -, ⟨h, -⟩ | ⟨-, h⟩⟩
    · exact hno h
    · rw [h1, h2, h3] at h
      exact absurd h (by decide)
  have hfront : Checked ("--no-lzma" :: method) := hm.cons (by decide) (by decide)
  rw [insertFlags, if_neg hno, if_neg hlzma] at h
  cases heffort : hasEffort method with
  | false =>
    have hnonlzma : hasNonlzmaEffort method = false :=
      Bool.eq_false_iff.mpr fun hn => by
        rw [hasEffort_of_hasNonlzmaEffort hn] at heffort
        cases heffort
    cases hnrv : hasNrv method with
    | true =>
      rw [heffort, hnrv] at h
      cases h
      refine iff_of_true (again_of_noLzma (hfront.cons (by decide) (by decide))
        (List.mem_cons_of_mem _ List.mem_cons_self) ?_
        (by simp [hasEffort, upxEffortMethodFlags, upxNonlzmaEffortMethodFlags]))
        (hsettled (Or.inr (Or.inl hnrv)))
      simp [hlzma]
    | false =>
      cases doAdd with
      | true =>
        rw [heffort, hnrv] at h
        cases h
        exact iff_of_false (not_again_of_brute
          (methodFlags_ne_nil (by decide) (List.mem_cons_of_mem _ List.mem_cons_self))
          (Or.inr List.mem_cons_self)) (hunsettled hnonlzma hnrv rfl)
      | false =>
        rw [heffort, hnrv] at h
        cases h
        have hnil : methodFlags ("--no-lzma" :: method) = [] :=
          (methodFlags_cons_of_notMem (by decide)).trans (methodFlags_eq_nil hlzma hnone hnrv)
        refine iff_of_true (again_of_noLzma (hfront.cons_of_nil hnil (by decide))
          (List.mem_cons_of_mem _ List.mem_cons_self) ?_
          (by simp [hasEffort, upxEffortMethodFlags])) (hsettled (Or.inr (Or.inr rfl)))
        simp [hlzma]
  | true =>
    have heffort' : hasEffort ("--no-lzma" :: method) = true := by
      rw [hasEffort, List.any_cons]
      exact (Bool.or_eq_true _ _).mpr (Or.inr heffort)
    have hlzma' : "--lzma" ∉ "--no-lzma" :: method := by simp [hlzma]
    have hagain : Again ("--no-lzma" :: method) doAdd :=
      again_of_noLzma hfront List.mem_cons_self hlzma' heffort'
    cases hnonlzma : hasNonlzmaEffort method with
    | true =>
      rw [heffort, hnonlzma] at h
      cases h
      exact iff_of_true hagain (hsettled (Or.inl hnonlzma))
    | false =>
      have hbrute := hasBrute_of_hasEffort heffort hnonlzma
      cases hnrv : hasNrv method with
      | true =>
        rw [heffort, hnonlzma, hnrv] at h
        cases h
      | false =>
        cases doAdd with
        | true =>
          rw [heffort, hnonlzma, hnrv] at h
          cases h
          exact iff_of_false (not_again_of_brute (methodFlags_ne_nil (by decide) List.mem_cons_self)
            (hbrute.imp (List.mem_cons_of_mem _) (List.mem_cons_of_mem _)))
            (hunsettled hnonlzma hnrv rfl)
        | false =>
          rw [heffort, hnonlzma, hnrv] at h
          cases h
          exact iff_of_true hagain (hsettled (Or.inr (Or.inr rfl)))

/-- The second pass over what the choice returns. -/
theorem again_iff (hm : Checked method) (h : insertFlags method doAdd = .ok r) :
    Again r doAdd ↔ Settled method doAdd := by
  by_cases hno : "--no-lzma" ∈ method
  · exact again_iff_of_noLzma hm hno h
  · by_cases hlzma : "--lzma" ∈ method
    · exact again_iff_of_lzma hm hno hlzma h
    · exact again_iff_of_neither hm hno hlzma h

/-- What is returned has the dashes that it should have, so a second pass leaves them. -/
theorem normFlags_of_ok {method : Method} (h : getUpxMethodFlags method doAdd = .ok r) :
    normFlags r = r := by
  refine normFlags_of_isNormal fun flag hflag => ?_
  have hadded : ∀ f ∈ ["--none", "--no-lzma", "--lzma", "--best", "--ultra-brute"], IsNormal f := by
    decide +kernel
  rcases chooseFlags_ok h with ⟨-, rfl⟩ | ⟨-, h⟩
  · refine hadded flag ?_
    rcases List.mem_cons.mp hflag with rfl | hflag
    · exact List.mem_cons_self
    · obtain rfl := List.mem_singleton.mp hflag
      exact List.mem_cons_of_mem _ List.mem_cons_self
  · have hmem : flag ∈ normFlags method.flags ∨
        flag ∈ ["--none", "--no-lzma", "--lzma", "--best", "--ultra-brute"] := by
      unfold insertFlags at h
      split_ifs at h <;> cases h <;> grind
    exact hmem.elim isNormal_of_mem_normFlags (hadded flag)

/-- A second pass over its own result is accepted, with flags that say the same. -/
def Idempotent (r : List String) (doAdd : Bool) : Prop :=
  ∃ out, getUpxMethodFlags (.list r) doAdd = .ok out ∧ ∀ flag, flag ∈ out ↔ flag ∈ r

/-- For every list of flags that is accepted, a second pass over the result is accepted and says the
same if and only if the flags choose neither `--none` nor LZMA, and no flag that is put in front of
them does or conflicts with an `--nrv` flag. -/
theorem getUpxMethodFlags_again_iff (method : Method) (doAdd : Bool) (r : List String)
    (h : getUpxMethodFlags method doAdd = .ok r) :
    Idempotent r doAdd ↔ Settled (normFlags method.flags) doAdd := by
  have hsame : Idempotent r doAdd ↔ Again r doAdd := by
    rw [Idempotent, getUpxMethodFlags, Method.flags, normFlags_of_ok h, Again]
  rw [hsame]
  rcases chooseFlags_ok h with ⟨hnone, rfl⟩ | ⟨hm, h⟩
  · refine iff_of_false ?_ fun hs => hs.1 hnone
    rintro ⟨out, hout, -⟩
    rcases chooseFlags_ok hout with ⟨-, hr⟩ | ⟨hm, -⟩
    · have hrefused : (chooseFlags ["--none", "--no-lzma"] doAdd).isOk = false := by
        cases doAdd <;> rfl
      rw [hout] at hrefused
      cases hrefused
    · exact hm.none_notMem List.mem_cons_self
  · exact again_iff hm h

/-- An effort of UPX itself. -/
theorem getUpxMethodFlags_again_iff_best : Idempotent ["--no-lzma", "--best"] true ↔
    Settled (normFlags (Method.str "best").flags) true :=
  getUpxMethodFlags_again_iff (.str "best") true ["--no-lzma", "--best"] (by decide +kernel)

/-- `--none` is returned with a flag that it must not be given with. -/
theorem not_idempotent_none : ¬ ∀ (method : Method) (doAdd : Bool) (r : List String),
    getUpxMethodFlags method doAdd = .ok r → Idempotent r doAdd := by
  intro hall
  obtain ⟨out, hout, -⟩ := hall (.str "--none") true ["--none", "--no-lzma"] (by decide +kernel)
  have hrefused : getUpxMethodFlags (.list ["--none", "--no-lzma"]) true =
      .error (.valueError "--none must be specified alone.") := by decide +kernel
  rw [hrefused] at hout
  cases hout

end Liigboot.Tools
