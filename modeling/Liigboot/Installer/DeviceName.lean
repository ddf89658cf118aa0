import Liigboot.Lib.Bytes
import Liigboot.Lib.Loop

/-!
# The name of the target device

`find_device_name` copies the names of the entries of `/dev` into a buffer, one after the other, and
looks whether one is the wanted device. Its test for room looks at the name that is in the buffer,
which is the one of the entry before, and at the first entry whatever the buffer had; when the test
fails it goes on with the same entry, for ever.
-/

namespace Liigboot.Installer

/-! ## The source -/

/-- An entry of a directory. -/
structure Dirent where
  name : List UInt8
  name_ne : name ≠ []
  no_nul : 0 ∉ name
  length_le : name.length ≤ 255

/-- What `lstat` returns: `S_ISBLK(st_mode)` and `st_rdev`. -/
structure Stat where
  isBlk : Bool
  rdev : Nat

/-- What the operating system answers: whether `open` succeeds, the blocks of entries that the calls
of `getdents` return, each with one entry at least, whether the call behind them fails, and what
`lstat` returns when it succeeds. -/
structure DevSys where
  opens : Bool
  blocks : List (Dirent × List Dirent)
  fails : Bool
  lstat : List UInt8 → Option Stat

/-- The string at the beginning of a memory. -/
def cstr (mem : List UInt8) : List UInt8 := mem.takeWhile (· != 0)

/-- `strlen`; there is none if the memory ends before the string does. -/
def strlen (mem : List UInt8) : Option Nat :=
  if (cstr mem).length < mem.length then some (cstr mem).length else none

/-- `strcpy` to an offset; there is none if the memory ends before the copy does. -/
def strcpy (mem : List UInt8) (off : Nat) (src : List UInt8) : Option (List UInt8) :=
  if off + src.length + 1 ≤ mem.length then some (blit mem off (src ++ [0])) else none

/-- `"/dev/"`. -/
def devPrefix : List UInt8 := [0x2f, 0x64, 0x65, 0x76, 0x2f]

/-- The blocks that are still to come, the entries from `bpos` on, and the memory from `dev_name`
on. -/
structure Search where
  blocks : List (Dirent × List Dirent)
  recs : List Dirent
  devName : List UInt8

/-- `lstat` succeeds, and it is a block device with a number. -/
def isWanted (sys : DevSys) (mbrDev : Nat) (path : List UInt8) : Bool :=
  match sys.lstat path with
  | none => false
  | some st => st.isBlk && st.rdev == mbrDev

/-- A pass of the loops of `find_device_name`: the outer one gets a block, the inner one looks at an
entry. `continue` does not go on to the next entry. -/
def findStep (sys : DevSys) (mbrDev size : Nat) (s : Search) : Step Search (Int × List UInt8) :=
  match s.recs with
  | [] =>
    match s.blocks with
    | [] => .stop (if sys.fails then -1 else 1, s.devName)
    | (d, ds) :: blocks => .next { s with blocks, recs := d :: ds }
  | d :: recs =>
    match strlen s.devName with
    | none => .hang
    | some len =>
      if len + 6 > size then .next s
      else
        match strcpy s.devName 5 d.name with
        | none => .hang
        | some devName =>
          if isWanted sys mbrDev (cstr devName) then .stop (0, devName)
          else .next { s with recs, devName }

/-- `find_device_name` up to its loop. -/
def findDeviceName (sys : DevSys) (size : Nat) (devName : List UInt8) :
    Step Search (Int × List UInt8) :=
  if size < 7 then .stop (1, devName)
  else
    let devName := blit devName 0 devPrefix
    if sys.opens then .next { blocks := sys.blocks, recs := [], devName }
    else .stop (-1, devName)

/-- `find_device_name` returns a number and leaves a memory. -/
def Returns (sys : DevSys) (mbrDev size : Nat) (devName : List UInt8) (r : Int × List UInt8) :
    Prop :=
  findDeviceName sys size devName = .stop r ∨ ∃ s n, findDeviceName sys size devName = .next s ∧
    runLoop (findStep sys mbrDev size) n s = some r

/-- `find_device_name` gets to a place in its loop. -/
def Gets (sys : DevSys) (mbrDev size : Nat) (devName : List UInt8) (t : Search) : Prop :=
  ∃ s, findDeviceName sys size devName = .next s ∧ Reaches (findStep sys mbrDev size) s t

/-- The entries of `/dev` that are read. -/
def DevSys.entries (sys : DevSys) : List Dirent :=
  if sys.opens then sys.blocks.flatMap fun b => b.1 :: b.2 else []

/-- An entry fits into the buffer and is the wanted device. -/
def Dirent.Found (sys : DevSys) (mbrDev size : Nat) (d : Dirent) : Prop :=
  5 + d.name.length + 1 ≤ size ∧ isWanted sys mbrDev (devPrefix ++ d.name) = true

/-- `find_device_name` ends, writes inside the buffer only, and finds the wanted device if it is
there. -/
structure FindsDevice (sys : DevSys) (mbrDev size : Nat) (devName : List UInt8) : Prop where
  ends : ∃ r, Returns sys mbrDev size devName r
  writes : ∀ t d recs len, Gets sys mbrDev size devName t → t.recs = d :: recs →
    strlen t.devName = some len → ¬ len + 6 > size → 5 + d.name.length + 1 ≤ size
  found : ∀ r, Returns sys mbrDev size devName r →
    (r.1 = 0 ↔ ∃ d ∈ sys.entries, d.Found sys mbrDev size)
  name : ∀ r, Returns sys mbrDev size devName r → r.1 = 0 →
    ∃ d ∈ sys.entries, d.Found sys mbrDev size ∧ cstr r.2 = devPrefix ++ d.name

/-- The entries that are looked at have room, behind a name of some length: the name that is in the
buffer leaves six bytes, and the next one fits, up to the wanted one. -/
def AllFit (sys : DevSys) (mbrDev size : Nat) : Nat → List Dirent → Prop
  | _, [] => True
  | len, d :: ds => 5 + len + 6 ≤ size ∧ 5 + d.name.length + 1 ≤ size ∧
      (isWanted sys mbrDev (devPrefix ++ d.name) = true ∨ AllFit sys mbrDev size d.name.length ds)

/-! ## Strings -/

variable {sys : DevSys} {mbrDev size len n : Nat} {mem : List UInt8} {d : Dirent} {s t : Search}
  {r : Int × List UInt8}

theorem cstr_append {text rest : List UInt8} (h : 0 ∉ text) : cstr (text ++ 0 :: rest) = text := by
  have hall : ∀ b ∈ text, (b != 0) = true := fun b hb => by
    rw [bne_iff_ne]
    exact fun hz => h (hz ▸ hb)
  rw [cstr, List.takeWhile_append_of_pos hall]
  simp

/-- A name is copied behind the prefix. -/
theorem strcpy_name (hpre : mem.take 5 = devPrefix) (h : 5 + d.name.length + 1 ≤ mem.length) :
    ∃ mem', strcpy mem 5 d.name = some mem' ∧ mem'.length = mem.length ∧
      mem'.take 5 = devPrefix ∧ cstr mem' = devPrefix ++ d.name ∧
      strlen mem' = some (5 + d.name.length) := by
  have hmem : blit mem 5 (d.name ++ [0]) =
      (devPrefix ++ d.name) ++ 0 :: mem.drop (5 + (d.name ++ [0]).length) := by
    rw [blit, hpre]
    simp
  have hcstr : cstr (blit mem 5 (d.name ++ [0])) = devPrefix ++ d.name := by
    rw [hmem]
    refine cstr_append fun hzero => ?_
    rcases List.mem_append.mp hzero with hpre | hname
    · exact absurd hpre (by decide)
    · exact d.no_nul hname
  have hlength : (blit mem 5 (d.name ++ [0])).length = mem.length :=
    length_blit (by rw [List.length_append, List.length_singleton]; omega)
  refine ⟨_, by rw [strcpy, if_pos h], hlength, ?_, hcstr, ?_⟩
  · rw [hmem, List.append_assoc]
    rfl
  · have hcount : (devPrefix ++ d.name).length = 5 + d.name.length := by
      rw [List.length_append]
      rfl
    rw [strlen, hcstr, hlength, hcount, if_pos (by omega)]

/-! ## One entry -/

/-- The entries that are still to come. -/
def Search.entries (s : Search) : List Dirent := s.recs ++ s.blocks.flatMap fun b => b.1 :: b.2

/-- The buffer is there, with the prefix and a string of some length behind it. -/
structure HasName (size len : Nat) (mem : List UInt8) : Prop where
  size_le : size ≤ mem.length
  take : mem.take 5 = devPrefix
  strlen : strlen mem = some (5 + len)

/-- An entry with room is copied to the buffer, and taken if it is the wanted device. -/
theorem findStep_entry {recs : List Dirent} (hrecs : s.recs = d :: recs)
    (hname : HasName size len s.devName) (hroom : 5 + len + 6 ≤ size)
    (hfits : 5 + d.name.length + 1 ≤ size) : ∃ devName,
      findStep sys mbrDev size s = (if isWanted sys mbrDev (devPrefix ++ d.name) then
        .stop (0, devName) else .next { s with recs, devName }) ∧
      HasName size d.name.length devName ∧ cstr devName = devPrefix ++ d.name := by
  obtain ⟨hsize, htake, hlen⟩ := hname
  obtain ⟨devName, hcopy, hlength, htake', hcstr, hlen'⟩ :=
    strcpy_name htake (hfits.trans hsize)
  refine ⟨devName, ?_, ⟨hlength ▸ hsize, htake', hlen'⟩, hcstr⟩
  simp only [findStep, hrecs, hlen, hcopy, hcstr]
  rw [if_neg (by omega)]

/-- A new block. -/
theorem findStep_block {b : Dirent × List Dirent} {blocks : List (Dirent × List Dirent)}
    (hrecs : s.recs = []) (hblocks : s.blocks = b :: blocks) :
    findStep sys mbrDev size s = .next { s with blocks, recs := b.1 :: b.2 } := by
  simp only [findStep, hrecs, hblocks]

/-- The copy at a place of the loop fits, if there is one. -/
def WritesIn (size : Nat) (t : Search) : Prop :=
  ∀ d recs len, t.recs = d :: recs → strlen t.devName = some len → ¬ len + 6 > size →
    5 + d.name.length + 1 ≤ size

/-- A search that ends, and copies inside the buffer only, has room for the entries. -/
theorem allFit_of_ends (hrun : runLoop (findStep sys mbrDev size) n s = some r)
    (hwrites : ∀ t, Reaches (findStep sys mbrDev size) s t → WritesIn size t)
    (hname : HasName size len s.devName) : AllFit sys mbrDev size len s.entries := by
  induction n generalizing s len with
  | zero => cases hrun
  | succ n ih =>
    cases hrecs : s.recs with
    | nil =>
      cases hblocks : s.blocks with
      | nil =>
        rw [Search.entries, hrecs, hblocks]
        trivial
      | cons b blocks =>
        have hstep := @findStep_block sys mbrDev size s b blocks hrecs hblocks
        rw [runLoop, hstep] at hrun
        have hrest := ih hrun (fun t ht => hwrites t ((Reaches.start.next hstep).trans ht)) hname
        rw [Search.entries, hrecs, hblocks]
        exact hrest
    | cons d recs =>
      have hroom : 5 + len + 6 ≤ size := by
        by_contra hfull
        have hstuck : findStep sys mbrDev size s = .next s := by
          simp only [findStep, hrecs, hname.strlen]
          rw [if_pos (by omega)]
        rw [runLoop_stuck hstuck] at hrun
        cases hrun
      have hfits := hwrites s .start d recs (5 + len) hrecs hname.strlen (by omega)
      obtain ⟨devName, hstep, hname', -⟩ := @findStep_entry sys mbrDev size len d s recs hrecs
        hname hroom hfits
      rw [Search.entries, hrecs]
      refine ⟨hroom, hfits, ?_⟩
      split_ifs at hstep with hwanted
      · exact Or.inl hwanted
      · rw [runLoop, hstep] at hrun
        exact Or.inr (ih hrun (fun t ht => hwrites t ((Reaches.start.next hstep).trans ht)) hname')

/-- The result is zero if one of some entries fits and is the wanted device, and then the buffer has
the name of such an entry. -/
def Outcome (sys : DevSys) (mbrDev size : Nat) (entries : List Dirent) (r : Int × List UInt8) :
    Prop :=
  (r.1 = 0 ↔ ∃ d ∈ entries, d.Found sys mbrDev size) ∧
    (r.1 = 0 → ∃ d ∈ entries, d.Found sys mbrDev size ∧ cstr r.2 = devPrefix ++ d.name)

/-- An entry that is not the wanted device does not matter. -/
theorem Outcome.cons {entries : List Dirent} (h : Outcome sys mbrDev size entries r)
    (hd : isWanted sys mbrDev (devPrefix ++ d.name) ≠ true) :
    Outcome sys mbrDev size (d :: entries) r := by
  obtain ⟨hzero, hname⟩ := h
  have hnot : ¬ d.Found sys mbrDev size := fun hf => hd hf.2
  refine ⟨hzero.trans ?_, fun h0 => ?_⟩
  · simp [hnot]
  · obtain ⟨e, he, hfound⟩ := hname h0
    exact ⟨e, List.mem_cons_of_mem _ he, hfound⟩

/-- A search that ends at once. -/
theorem findStep_end (hrecs : s.recs = []) (hblocks : s.blocks = []) :
    ∃ r, findStep sys mbrDev size s = .stop r ∧ Outcome sys mbrDev size s.entries r := by
  refine ⟨(if sys.fails then -1 else 1, s.devName), by simp only [findStep, hrecs, hblocks], ?_⟩
  have hne : (if sys.fails then -1 else 1 : Int) ≠ 0 := by
    split_ifs <;> decide
  have hempty : s.entries = [] := by simp [Search.entries, hrecs, hblocks]
  rw [Outcome, hempty]
  exact ⟨iff_of_false hne (by simp), fun h0 => absurd h0 hne⟩

theorem writesIn_of_recs (hrecs : s.recs = []) : WritesIn size s := by
  intro d recs len hcons
  rw [hrecs] at hcons
  cases hcons

/-- A search with room for the entries ends as it should, and copies inside the buffer only. -/
theorem ends_of_allFit (hfit : AllFit sys mbrDev size len s.entries)
    (hname : HasName size len s.devName) :
    (∃ n r, runLoop (findStep sys mbrDev size) n s = some r ∧
      Outcome sys mbrDev size s.entries r) ∧
    ∀ t, Reaches (findStep sys mbrDev size) s t → WritesIn size t := by
  generalize hm : s.entries.length + s.blocks.length = m
  induction m using Nat.strong_induction_on generalizing s len with
  | _ m ih =>
    cases hrecs : s.recs with
    | nil =>
      cases hblocks : s.blocks with
      | nil =>
        obtain ⟨r, hstop, houtcome⟩ := @findStep_end sys mbrDev size s hrecs hblocks
        refine ⟨⟨1, r, runLoop_stop hstop, houtcome⟩, fun t ht => ?_⟩
        rcases ht.cases_head with rfl | ⟨u, hu, -⟩
        · exact writesIn_of_recs hrecs
        · rw [hstop] at hu
          cases hu
      | cons b blocks =>
        have hstep := @findStep_block sys mbrDev size s b blocks hrecs hblocks
        have hentries : (Search.mk blocks (b.1 :: b.2) s.devName).entries = s.entries := by
          simp [Search.entries, hrecs, hblocks]
        obtain ⟨⟨n, r, hrun, houtcome⟩, hwrites⟩ :=
          @ih ((Search.mk blocks (b.1 :: b.2) s.devName).entries.length + blocks.length)
            (by rw [hentries, ← hm, hblocks, List.length_cons]; omega) len
            ⟨blocks, b.1 :: b.2, s.devName⟩ (by rw [hentries]; exact hfit) hname rfl
        rw [hentries] at houtcome
        refine ⟨⟨n + 1, r, runLoop_next hstep hrun, houtcome⟩, fun t ht => ?_⟩
        rcases ht.cases_head with rfl | ⟨u, hu, hreach⟩
        · exact writesIn_of_recs hrecs
        · rw [hstep] at hu
          cases hu
          exact hwrites t hreach
    | cons d recs =>
      have hentries : s.entries = d :: (Search.mk s.blocks recs []).entries := by
        simp [Search.entries, hrecs]
      rw [hentries] at hfit ⊢
      obtain ⟨hroom, hfits, hrest⟩ := hfit
      obtain ⟨devName, hstep, hname', hcstr⟩ := @findStep_entry sys mbrDev size len d s recs hrecs
        hname hroom hfits
      have hhere : WritesIn size s := fun d' recs' len' hcons _ _ => by
        rw [hrecs] at hcons
        cases hcons
        exact hfits
      split_ifs at hstep with hwanted
      · refine ⟨⟨1, _, runLoop_stop hstep, ?_⟩, fun t ht => ?_⟩
        · exact ⟨iff_of_true rfl ⟨d, List.mem_cons_self, hfits, hwanted⟩,
            fun _ => ⟨d, List.mem_cons_self, ⟨hfits, hwanted⟩, hcstr⟩⟩
        · rcases ht.cases_head with rfl | ⟨u, hu, -⟩
          · exact hhere
          · rw [hstep] at hu
            cases hu
      · rw [hentries, List.length_cons] at hm
        obtain ⟨⟨n, r, hrun, houtcome⟩, hwrites⟩ :=
          @ih ((Search.mk s.blocks recs []).entries.length + s.blocks.length) (by omega)
            d.name.length ⟨s.blocks, recs, devName⟩ (hrest.resolve_left hwanted) hname' rfl
        refine ⟨⟨n + 1, r, runLoop_next hstep hrun, houtcome.cons hwanted⟩, fun t ht => ?_⟩
        rcases ht.cases_head with rfl | ⟨u, hu, hreach⟩
        · exact hhere
        · rw [hstep] at hu
          cases hu
          exact hwrites t hreach

/-! ## The result -/

/-- The prefix does not change what is behind it. -/
theorem strlen_blit (mem : List UInt8) :
    strlen (blit mem 0 devPrefix) = (strlen (mem.drop 5)).map (5 + ·) := by
  have hblit : blit mem 0 devPrefix = devPrefix ++ mem.drop 5 := rfl
  have hall : ∀ b ∈ devPrefix, (b != 0) = true := List.all_eq_true.mp rfl
  have hcstr : cstr (devPrefix ++ mem.drop 5) = devPrefix ++ cstr (mem.drop 5) :=
    List.takeWhile_append_of_pos hall
  have hfive : devPrefix.length = 5 := rfl
  rw [hblit, strlen, hcstr, strlen, List.length_append, List.length_append, hfive]
  by_cases hlt : (cstr (mem.drop 5)).length < (mem.drop 5).length
  · rw [if_pos (by omega), if_pos hlt, Option.map_some]
  · rw [if_neg (by omega), if_neg hlt, Option.map_none]

/-- A search that is over before its loop. -/
theorem finds_of_stop {devName : List UInt8} (hstart : findDeviceName sys size devName = .stop r)
    (houtcome : Outcome sys mbrDev size sys.entries r) : FindsDevice sys mbrDev size devName := by
  have hreturns : ∀ r', Returns sys mbrDev size devName r' → r' = r := by
    rintro r' (hstop | ⟨s, n, hnext, -⟩)
    · rw [hstart] at hstop
      cases hstop
      rfl
    · rw [hstart] at hnext
      cases hnext
  refine ⟨⟨r, Or.inl hstart⟩, ?_, fun r' h => ?_, fun r' h => ?_⟩
  · rintro t d recs len ⟨s, hnext, -⟩
    rw [hstart] at hnext
    cases hnext
  · rw [hreturns r' h]
    exact houtcome.1
  · rw [hreturns r' h]
    exact houtcome.2

/-- A search that comes to its loop. -/
theorem finds_iff_of_next {devName : List UInt8}
    (hstart : findDeviceName sys size devName = .next s) :
    FindsDevice sys mbrDev size devName ↔
      (∃ n r, runLoop (findStep sys mbrDev size) n s = some r ∧
        Outcome sys mbrDev size sys.entries r) ∧
      ∀ t, Reaches (findStep sys mbrDev size) s t → WritesIn size t := by
  have hreturns : ∀ r, Returns sys mbrDev size devName r ↔
      ∃ n, runLoop (findStep sys mbrDev size) n s = some r := by
    intro r
    simp [Returns, hstart]
  have hgets : ∀ t, Gets sys mbrDev size devName t ↔ Reaches (findStep sys mbrDev size) s t := by
    intro t
    simp [Gets, hstart]
  constructor
  · rintro ⟨⟨r, hr⟩, hwrites, hfound, hname⟩
    obtain ⟨n, hrun⟩ := (hreturns r).mp hr
    exact ⟨⟨n, r, hrun, hfound r hr, hname r hr⟩,
      fun t ht d recs len => hwrites t d recs len ((hgets t).mpr ht)⟩
  · rintro ⟨⟨n, r, hrun, houtcome⟩, hwrites⟩
    have hone : ∀ r', Returns sys mbrDev size devName r' → r' = r := fun r' h => by
      obtain ⟨n', hrun'⟩ := (hreturns r').mp h
      exact runLoop_unique hrun' hrun
    refine ⟨⟨r, (hreturns r).mpr ⟨n, hrun⟩⟩, fun t d recs len ht =>
      hwrites t ((hgets t).mp ht) d recs len, fun r' h => ?_, fun r' h => ?_⟩
    · rw [hone r' h]
      exact houtcome.1
    · rw [hone r' h]
      exact houtcome.2

/-- No entry fits into a buffer of less than seven bytes. -/
theorem not_found_of_short (hshort : size < 7) : ¬ d.Found sys mbrDev size := by
  rintro ⟨hfits, -⟩
  have hpos : 0 < d.name.length := List.length_pos_of_ne_nil d.name_ne
  omega

/-- `find_device_name` ends, stays inside the buffer and finds the wanted device if and only if the
buffer is too short for any name, or there is no entry, or there is room for each entry that is
looked at, with what the buffer has in front of it. -/
theorem finds_device_iff (sys : DevSys) (mbrDev size : Nat) (devName : List UInt8)
    (hsize : size ≤ devName.length) :
    FindsDevice sys mbrDev size devName ↔ (size < 7 ∨ sys.entries = [] ∨
      ∃ len, strlen (devName.drop 5) = some len ∧ AllFit sys mbrDev size len sys.entries) := by
  by_cases hshort : size < 7
  · refine iff_of_true (finds_of_stop (by rw [findDeviceName, if_pos hshort]) ?_) (Or.inl hshort)
    exact ⟨iff_of_false Int.one_ne_zero fun ⟨d, _, hd⟩ => not_found_of_short hshort hd,
      fun hone => absurd hone Int.one_ne_zero⟩
  · cases hopens : sys.opens with
    | false =>
      have hempty : sys.entries = [] := by simp [DevSys.entries, hopens]
      have hne : (-1 : Int) ≠ 0 := by decide
      have hstop : findDeviceName sys size devName = .stop (-1, blit devName 0 devPrefix) := by
        simp [findDeviceName, hshort, hopens]
      refine iff_of_true (finds_of_stop hstop ?_) (Or.inr (Or.inl hempty))
      rw [hempty]
      exact ⟨iff_of_false hne (by simp), fun h0 => absurd h0 hne⟩
    | true =>
      have hstart : findDeviceName sys size devName =
          .next ⟨sys.blocks, [], blit devName 0 devPrefix⟩ := by
        simp [findDeviceName, hshort, hopens]
      have hentries : (Search.mk sys.blocks [] (blit devName 0 devPrefix)).entries = sys.entries := by
        simp [Search.entries, DevSys.entries, hopens]
      have hlength : (blit devName 0 devPrefix).length = devName.length :=
        length_blit (by simp [devPrefix]; omega)
      rw [finds_iff_of_next hstart, or_iff_right hshort]
      cases hblocks : sys.blocks with
      | nil =>
        obtain ⟨r, hstop, houtcome⟩ := @findStep_end sys mbrDev size
          ⟨[], [], blit devName 0 devPrefix⟩ rfl rfl
        rw [hblocks] at hentries
        rw [hentries] at houtcome
        refine iff_of_true ⟨⟨1, r, runLoop_stop hstop, houtcome⟩, fun t ht => ?_⟩
          (Or.inl (hentries.symm.trans rfl))
        rcases ht.cases_head with rfl | ⟨u, hu, -⟩
        · exact writesIn_of_recs rfl
        · rw [hstop] at hu
          cases hu
      | cons b blocks =>
        have hne : sys.entries ≠ [] := by simp [DevSys.entries, hopens, hblocks]
        rw [← hblocks, or_iff_right hne]
        constructor
        · rintro ⟨⟨n, r, hrun, -⟩, hwrites⟩
          cases hlen : strlen (devName.drop 5) with
          | none =>
            have hfirst := @findStep_block sys mbrDev size ⟨sys.blocks, [], blit devName 0 devPrefix⟩
              b blocks rfl hblocks
            have hhang : findStep sys mbrDev size
                ⟨blocks, b.1 :: b.2, blit devName 0 devPrefix⟩ = .hang := by
              simp only [findStep, strlen_blit, hlen, Option.map_none]
            obtain ⟨t, ht, hstop⟩ := runLoop_reaches hrun
            rcases ht.cases_head with rfl | ⟨u, hu, hreach⟩
            · rw [hfirst] at hstop
              cases hstop
            · rw [hfirst] at hu
              cases hu
              rcases hreach.cases_head with rfl | ⟨u, hu, -⟩
              · rw [hhang] at hstop
                cases hstop
              · rw [hhang] at hu
                cases hu
          | some len =>
            have hname : HasName size len (blit devName 0 devPrefix) :=
              ⟨hlength ▸ hsize, rfl, by rw [strlen_blit, hlen]; rfl⟩
            have hfit := allFit_of_ends hrun hwrites hname
            rw [hentries] at hfit
            exact ⟨len, rfl, hfit⟩
        · rintro ⟨len, hlen, hfit⟩
          have hname : HasName size len (blit devName 0 devPrefix) :=
            ⟨hlength ▸ hsize, rfl, by rw [strlen_blit, hlen]; rfl⟩
          rw [← hentries] at hfit ⊢
          exact ends_of_allFit hfit hname

/-- An entry with a name of some letters. -/
def letterEntry (n : Nat) (hpos : 0 < n) (hle : n ≤ 255) : Dirent where
  name := List.replicate n 0x61
  name_ne := List.ne_nil_of_length_pos (by rwa [List.length_replicate])
  no_nul := fun h => absurd (List.eq_of_mem_replicate h) (by decide)
  length_le := by rwa [List.length_replicate]

/-- A `/dev` with a name of 22 letters in front of the wanted device, `a`. -/
def twoEntries : DevSys where
  opens := true
  blocks := [(letterEntry 22 (by decide) (by decide), [letterEntry 1 (by decide) (by decide)])]
  fails := false
  lstat path := if path = devPrefix ++ [0x61] then some ⟨true, 0x800⟩ else none

theorem finds_device_iff_sample :
    FindsDevice twoEntries 0x800 32 (List.replicate 32 0) ↔ (32 < 7 ∨ twoEntries.entries = [] ∨
      ∃ len, strlen ((List.replicate 32 0).drop 5) = some len ∧
        AllFit twoEntries 0x800 32 len twoEntries.entries) :=
  finds_device_iff twoEntries 0x800 32 (List.replicate 32 0) (by simp)

theorem long_name_hangs : ¬ ∀ (sys : DevSys) (mbrDev size : Nat) (devName : List UInt8),
    size ≤ devName.length → FindsDevice sys mbrDev size devName := by
  intro hall
  have hfinds := hall twoEntries 0x800 32 (List.replicate 32 0) (by simp)
  have hstart : findDeviceName twoEntries 32 (List.replicate 32 0) =
      .next ⟨twoEntries.blocks, [], devPrefix ++ List.replicate 27 0⟩ := rfl
  obtain ⟨⟨n, r, hrun, -⟩, hwrites⟩ := (finds_iff_of_next hstart).mp hfinds
  have hname : HasName 32 0 (devPrefix ++ List.replicate 27 0) := ⟨by decide, rfl, rfl⟩
  -- The second entry does not have the six bytes behind the first name.
  obtain ⟨-, -, hwanted | ⟨hroom, -⟩⟩ := allFit_of_ends hrun hwrites hname
  · exact absurd hwanted (by decide)
  · exact absurd hroom (by decide)

end Liigboot.Installer
