import Liigboot.Lib.MemoTable
import Liigboot.Fs.Fat.Directory

/-!
# The cache of `vfat_cvt_longname`

The conversion of a long name keeps the last code of each of 256 groups of characters in a static
table. The table starts with zeros, which say that the code of the null character is 0.
-/

namespace Liigboot.Fs.Fat

/-- The table `codepage.uni`, both cases one behind the other. -/
abbrev UniTable := Fin 512 → UInt16

/-- `for (c = 0; c < 512; c++)`: the code is cut to a byte. -/
@[irreducible] def searchCode (uni : UniTable) (u : UInt16) : Option UInt8 :=
  ((List.finRange 512).find? fun c => uni c = u).map fun c : Fin 512 => UInt8.ofNat c.val

/-- `unicache`: the members `utf16` and `cp` of each entry. -/
abbrev Unicache := Fin 256 → UInt16 × UInt8

/-- The static table before the first call. -/
def Unicache.zero : Unicache := fun _ => (0, 0)

/-- `cp % 256` -/
def cacheSlot (u : UInt16) : Fin 256 := ⟨u.toNat % 256, Nat.mod_lt _ (by decide)⟩

/-- What a call of `vfat_cvt_longname` stores at `entry_name`, and what it returns. -/
structure Converted where
  stored : List UInt8
  length : Int
  deriving DecidableEq, Repr

/-- The loop of `vfat_cvt_longname`, with the bytes stored so far. There is no result when the
string has no end. -/
def cvtLoop (uni : UniTable) : Unicache → List UInt8 → List UInt16 → Option (Converted × Unicache)
  | _, _, [] => none
  | cache, stored, cp :: longName =>
    match memoLookup (searchCode uni) cacheSlot cache cp with
    | none => some (⟨stored, -1⟩, cache)
    | some (c, cache) =>
      if cp = 0 then some (⟨stored ++ [c], stored.length⟩, cache)
      else cvtLoop uni cache (stored ++ [c]) longName

/-- `vfat_cvt_longname`. -/
def vfatCvtLongnameCached (uni : UniTable) (cache : Unicache) (longName : List UInt16) :
    Option (Converted × Unicache) := cvtLoop uni cache [] longName

/-- The conversion that searches the table for every character. -/
def cvtAfresh (uni : UniTable) : List UInt8 → List UInt16 → Option Converted
  | _, [] => none
  | stored, cp :: longName =>
    match searchCode uni cp with
    | none => some ⟨stored, -1⟩
    | some c =>
      if cp = 0 then some ⟨stored ++ [c], stored.length⟩
      else cvtAfresh uni (stored ++ [c]) longName

/-- The calls of a history, one after the other on the static table. -/
def cvtCalls (uni : UniTable) : Unicache → List (List UInt16) → Option (List Converted × Unicache)
  | cache, [] => some ([], cache)
  | cache, longName :: rest =>
    (vfatCvtLongnameCached uni cache longName).bind fun (r, cache) =>
      (cvtCalls uni cache rest).map fun (rs, cache) => (r :: rs, cache)

variable {uni : UniTable} {cache cache' : Unicache} {longName : List UInt16}

/-! ## What the table keeps -/

theorem searchCode_zero (h : uni 0 = 0) : searchCode uni 0 = some 0 := by
  have hfirst : (List.finRange 512).find? (fun c => uni c = 0) = some 0 := by
    rw [List.finRange_succ]
    exact List.find?_cons_of_pos (decide_eq_true h)
  unfold searchCode
  rw [hfirst, Option.map_some]
  rfl

/-- The zeros of the static table hold the code of the null character. -/
theorem memoSound_zero (h : uni 0 = 0) : MemoSound (searchCode uni) Unicache.zero :=
  fun _ => searchCode_zero h

/-- A sound table gives the result of the search, and stays sound. -/
theorem cvtLoop_eq (h : MemoSound (searchCode uni) cache) (stored : List UInt8) :
    (cvtLoop uni cache stored longName).map Prod.fst = cvtAfresh uni stored longName ∧
      ∀ r cache', cvtLoop uni cache stored longName = some (r, cache') →
        MemoSound (searchCode uni) cache' := by
  induction longName generalizing cache stored with
  | nil =>
    refine ⟨rfl, fun r cache' hr => ?_⟩
    rw [cvtLoop] at hr
    cases hr
  | cons cp longName ih =>
    rw [cvtLoop, cvtAfresh]
    have hsearch := h.lookup_eq cacheSlot cp
    cases hlookup : memoLookup (searchCode uni) cacheSlot cache cp with
    | none =>
      rw [hlookup] at hsearch
      rw [← hsearch]
      refine ⟨rfl, fun r cache' hr => ?_⟩
      obtain ⟨-, rfl⟩ := Prod.mk.inj (Option.some.inj hr)
      exact h
    | some found =>
      obtain ⟨c, cache'⟩ := found
      obtain ⟨hcode, hsound⟩ := h.lookup hlookup
      rw [hcode]
      dsimp only
      split_ifs
      · refine ⟨rfl, fun r cache'' hr => ?_⟩
        obtain ⟨-, rfl⟩ := Prod.mk.inj (Option.some.inj hr)
        exact hsound
      · exact ih hsound (stored ++ [c])

/-- In every history of calls each one gives what a conversion without the table gives. -/
theorem cvtCalls_eq (h : MemoSound (searchCode uni) cache) (calls : List (List UInt16)) :
    (cvtCalls uni cache calls).map Prod.fst = calls.mapM (cvtAfresh uni []) := by
  induction calls generalizing cache with
  | nil => rfl
  | cons longName rest ih =>
    obtain ⟨hsame, hsound⟩ := @cvtLoop_eq uni cache longName h []
    rw [cvtCalls, vfatCvtLongnameCached, List.mapM_cons, ← hsame]
    cases hcall : cvtLoop uni cache [] longName with
    | none => rfl
    | some got =>
      obtain ⟨r, cache'⟩ := got
      rw [Option.bind_some]
      dsimp only
      rw [Option.map_map]
      have hrest := ih (hsound r cache' hcall)
      rw [← hrest, Option.map_some]
      cases cvtCalls uni cache' rest <;> rfl

/-- With a table whose first entry is the null character, the cache never changes a result: each
call of a history stores and returns what a conversion does that searches for every character. -/
theorem cvtCalls_afresh (uni : UniTable) (h : uni 0 = 0) (calls : List (List UInt16)) :
    (cvtCalls uni Unicache.zero calls).map Prod.fst = calls.mapM (cvtAfresh uni []) :=
  cvtCalls_eq (memoSound_zero h) calls

/-- The tables of a codepage, one behind the other. -/
def Codepage.uniTable (cp : Codepage) : UniTable := fun c =>
  if c.val < 256 then cp.uni (UInt8.ofNat c.val) else cp.alt (UInt8.ofNat c.val)

/-- Three calls with the codepage of the boot loader, two of them on characters of one slot. -/
theorem cvtCalls_afresh_codepage :
    (cvtCalls codepage.uniTable Unicache.zero [[0x61, 0], [0x161, 0], [0x61, 0x62, 0]]).map
      Prod.fst = [[0x61, 0], [0x161, 0], [0x61, 0x62, 0]].mapM (cvtAfresh codepage.uniTable []) :=
  cvtCalls_afresh codepage.uniTable codepage.uni_nul _

/-! ## The model without the cache -/

/-- The search over both tables of a codepage. -/
theorem searchCode_uniTable (cp : Codepage) (u : UInt16) :
    searchCode cp.uniTable u = codeOf cp u := by
  unfold searchCode codeOf
  rw [← List.map_coe_finRange_eq_range, List.find?_map, Option.map_map]
  rfl

/-- The conversion that `vfat_readdir` is modelled with is the one that searches afresh. -/
theorem vfatCvtLongname_eq_afresh (cp : Codepage) (longName : List UInt16) (stored : List UInt8) :
    (cvtAfresh cp.uniTable stored longName).map
        (fun r => if r.length < 0 then none else some (r.stored.take r.length.toNat)) =
      (vfatCvtLongname cp longName).map fun name => name.map (stored ++ ·) := by
  induction longName generalizing stored with
  | nil => rfl
  | cons u longName ih =>
    rw [cvtAfresh, vfatCvtLongname, searchCode_uniTable]
    cases codeOf cp u with
    | none => rfl
    | some c =>
      dsimp only
      split_ifs
      · simp
      · rw [ih, Option.map_map]
        congr 1
        funext name
        cases name with
        | none => rfl
        | some name => simp

end Liigboot.Fs.Fat
