import Liigboot.Lib.Memory
import Liigboot.Fs.Extent

/-!
# The search of an ext2 directory

`ext2_find_entry` goes from record to record by the lengths that the records have, block by block.
The bound inside a block is the smaller one of the block size and an unsigned difference.
-/

namespace Liigboot.Fs.Ext2

/-! ## The model -/

/-! `struct ext2_dir_entry`, at an offset of a block in the cache -/

def deInode (data : Memory) (o : Nat) : Nat := memLe data o 4

def deRecLen (data : Memory) (o : Nat) : Nat := memLe data (o + 4) 2

def deNameLen (data : Memory) (o : Nat) : Nat := (data (o + 6)).toNat

def deName (data : Memory) (o n : Nat) : List UInt8 := (List.range n).map fun i => data (o + 8 + i)

/-- `ext2_match_entry`. -/
def ext2MatchEntry (name : List UInt8) (data : Memory) (o : Nat) : Bool :=
  deInode data o ≠ 0 && name.length = deNameLen data o && deName data o name.length = name

/-- The inner loop of `ext2_find_entry`, from an offset on: the offset of the entry, or `none` where
the loop ends without one. There is no result while it runs. -/
def blockLoop (name : List UInt8) (data : Memory) (maxoffset : Nat) : Nat → Nat → Option (Option Nat)
  | 0, _ => none
  | fuel + 1, offset =>
    if offset < u32 (maxoffset + 2 ^ 32 - 8) then
      if deRecLen data offset > u32 (maxoffset + 2 ^ 32 - offset) then some none
      else if ext2MatchEntry name data offset then some (some offset)
      else blockLoop name data maxoffset fuel (u32 (offset + deRecLen data offset))
    else some none

/-- `min(BLOCK_SIZE(fs), i-inode->size)` -/
def maxOffset (blockSize size i : Nat) : Nat := min blockSize (u32 (i + 2 ^ 32 - size))

/-- The outer loop: the block and the offset of the entry. `dir` is what `ext2_get_cache` returns
for the blocks of the directory. -/
def dirLoop (name : List UInt8) (dir : Nat → Memory) (blockSize size : Nat) :
    Nat → Nat → Nat → Option (Option (Nat × Nat))
  | 0, _, _ => none
  | fuel + 1, i, index =>
    if i < size then
      match blockLoop name (dir index) (maxOffset blockSize size i) fuel 0 with
      | none => none
      | some (some offset) => some (some (index, offset))
      | some none => dirLoop name dir blockSize size fuel (u32 (i + blockSize)) (index + 1)
    else some none

/-- `ext2_find_entry`. -/
def ext2FindEntry (name : List UInt8) (dir : Nat → Memory) (blockSize size fuel : Nat) :
    Option (Option (Nat × Nat)) := dirLoop name dir blockSize size fuel 0 0

variable {name : List UInt8} {data : Memory} {dir : Nat → Memory} {blockSize size m fuel o : Nat}

/-! ## The records of a block -/

/-- The record at an offset is looked at: it has room in front of the bound and does not go past
it. -/
def Looks (data : Memory) (m o : Nat) : Prop :=
  o < u32 (m + 2 ^ 32 - 8) ∧ deRecLen data o ≤ m - o

/-- The offsets that the loop comes to, from record to record. -/
inductive Visited (name : List UInt8) (data : Memory) (m : Nat) : Nat → Prop where
  | first : Visited name data m 0
  | next {o : Nat} (h : Visited name data m o) (hlook : Looks data m o)
      (hne : ext2MatchEntry name data o = false) : Visited name data m (o + deRecLen data o)

/-- The loop finds the entry at an offset. -/
def Hits (name : List UInt8) (data : Memory) (m o : Nat) : Prop :=
  Visited name data m o ∧ Looks data m o ∧ ext2MatchEntry name data o = true

/-- The loop gets through the records of a block: none is the entry, and none has the length 0. -/
def Passes (name : List UInt8) (data : Memory) (m : Nat) : Prop :=
  ∀ o, Visited name data m o → Looks data m o →
    ext2MatchEntry name data o = false ∧ deRecLen data o ≠ 0

theorem Visited.le (h : Visited name data m o) : o ≤ m := by
  induction h with
  | first => exact Nat.zero_le m
  | next _ hlook _ ih =>
    have hlen := hlook.2
    omega

theorem blockLoop_mono {r : Option Nat} (h : blockLoop name data m fuel o = some r) (d : Nat) :
    blockLoop name data m (fuel + d) o = some r := by
  induction fuel generalizing o with
  | zero => cases h
  | succ fuel ih =>
    rw [Nat.succ_add, blockLoop]
    rw [blockLoop] at h
    split_ifs at h ⊢ with hin hlen hmatch
    · exact h
    · exact h
    · exact ih h
    · exact h

section Bounded

variable (hm : m < 2 ^ 32)

include hm

/-- A round at an offset that the loop comes to. -/
theorem blockLoop_succ (h : o ≤ m) :
    (Looks data m o → blockLoop name data m (fuel + 1) o =
      if ext2MatchEntry name data o then some (some o)
      else blockLoop name data m fuel (o + deRecLen data o)) ∧
    (¬Looks data m o → blockLoop name data m (fuel + 1) o = some none) := by
  have hroom : u32 (m + 2 ^ 32 - o) = m - o := by
    by_cases hzero : o = 0
    · subst hzero
      rw [u32]
      omega
    · rw [u32]
      omega
  rw [blockLoop, hroom]
  constructor
  · rintro ⟨hin, hlen⟩
    rw [if_pos hin, if_neg (Nat.not_lt.mpr hlen), u32_of_lt (by omega)]
  · intro hlook
    split_ifs with hin hlen
    · rfl
    · exact absurd ⟨hin, Nat.le_of_not_lt hlen⟩ hlook
    · exact absurd ⟨hin, Nat.le_of_not_lt hlen⟩ hlook
    · rfl

/-- The loop comes to the offsets that are visited. -/
theorem Visited.reached (h : Visited name data m o) (fuel : Nat) :
    ∃ fuel' ≥ fuel, blockLoop name data m fuel' 0 = blockLoop name data m fuel o := by
  induction h generalizing fuel with
  | first => exact ⟨fuel, Nat.le_refl _, rfl⟩
  | @next o h hlook hne ih =>
    obtain ⟨fuel', hle, hfuel⟩ := ih (fuel + 1)
    refine ⟨fuel', Nat.le_of_succ_le hle, hfuel.trans ?_⟩
    rw [(blockLoop_succ hm h.le).1 hlook, if_neg (by rw [hne]; exact Bool.false_ne_true)]

/-- A record of the length 0 that is not the entry keeps the loop at its place. -/
theorem blockLoop_stuck (h : o ≤ m) (hlook : Looks data m o)
    (hne : ext2MatchEntry name data o = false) (hzero : deRecLen data o = 0) (fuel : Nat) :
    blockLoop name data m fuel o = none := by
  induction fuel with
  | zero => rfl
  | succ fuel ih =>
    rw [(blockLoop_succ hm h).1 hlook, if_neg (by rw [hne]; exact Bool.false_ne_true), hzero,
      Nat.add_zero, ih]

/-- What the loop returns, from an offset that it comes to. -/
theorem blockLoop_some {r : Option Nat} (hvis : Visited name data m o)
    (h : blockLoop name data m fuel o = some r) : ∀ o', r = some o' → Hits name data m o' := by
  induction fuel generalizing o with
  | zero => cases h
  | succ fuel ih =>
    by_cases hlook : Looks data m o
    · rw [(blockLoop_succ hm hvis.le).1 hlook] at h
      split_ifs at h with hmatch
      · obtain rfl := Option.some.inj h
        intro o' ho'
        obtain rfl := Option.some.inj ho'
        exact ⟨hvis, hlook, hmatch⟩
      · exact ih (.next hvis hlook (Bool.eq_false_iff.mpr hmatch)) h
    · rw [(blockLoop_succ hm hvis.le).2 hlook] at h
      obtain rfl := Option.some.inj h
      intro o' ho'
      cases ho'

/-- The loop finds the entry that it hits. -/
theorem Hits.blockLoop (h : Hits name data m o) :
    ∃ fuel, blockLoop name data m fuel 0 = some (some o) := by
  obtain ⟨hvis, hlook, hmatch⟩ := h
  obtain ⟨fuel, -, hfuel⟩ := hvis.reached hm 1
  refine ⟨fuel, hfuel.trans ?_⟩
  rw [(blockLoop_succ hm hvis.le).1 hlook, if_pos hmatch]

/-- The loop ends without an entry if and only if it gets through the records. -/
theorem passes_iff :
    Passes name data m ↔ ∃ fuel, Ext2.blockLoop name data m fuel 0 = some none := by
  constructor
  · intro hpass
    -- the room behind the offset decreases
    have hends : ∀ n o, Visited name data m o → m - o ≤ n →
        ∃ fuel, Ext2.blockLoop name data m fuel o = some none := by
      intro n
      induction n with
      | zero =>
        intro o hvis hroom
        refine ⟨1, (blockLoop_succ hm hvis.le).2 fun hlook => ?_⟩
        have hlen := (hpass o hvis hlook).2
        have hle := hlook.2
        omega
      | succ n ih =>
        intro o hvis hroom
        by_cases hlook : Looks data m o
        · obtain ⟨hne, hlen⟩ := hpass o hvis hlook
          obtain ⟨fuel, hfuel⟩ := ih _ (.next hvis hlook hne) (by omega)
          refine ⟨fuel + 1, ?_⟩
          rw [(blockLoop_succ hm hvis.le).1 hlook, if_neg (by rw [hne]; exact Bool.false_ne_true),
            hfuel]
        · exact ⟨1, (blockLoop_succ hm hvis.le).2 hlook⟩
    exact hends m 0 .first (Nat.sub_le m 0)
  · rintro ⟨fuel, hfuel⟩ o hvis hlook
    have hne : ext2MatchEntry name data o = false := by
      by_contra hmatch
      obtain ⟨fuel', hhit⟩ := Hits.blockLoop hm ⟨hvis, hlook, by simpa using hmatch⟩
      have hend := blockLoop_mono hfuel fuel'
      have hhit' := blockLoop_mono hhit fuel
      rw [Nat.add_comm, hend] at hhit'
      cases hhit'
    refine ⟨hne, fun hzero => ?_⟩
    obtain ⟨fuel', hle, hstuck⟩ := hvis.reached hm fuel
    rw [blockLoop_stuck hm hvis.le hlook hne hzero] at hstuck
    have hend := blockLoop_mono hfuel (fuel' - fuel)
    rw [Nat.add_sub_cancel' hle, hstuck] at hend
    cases hend

end Bounded

/-! ## The blocks of a directory -/

theorem maxOffset_lt (blockSize size i : Nat) : maxOffset blockSize size i < 2 ^ 32 :=
  (Nat.min_le_right _ _).trans_lt (Nat.mod_lt _ (by decide))

/-- The bound in block `k`, whose start is taken as a 32-bit number. -/
def blockBound (blockSize size k : Nat) : Nat := maxOffset blockSize size (u32 (k * blockSize))

theorem dirLoop_mono {i index : Nat} {r : Option (Nat × Nat)}
    (h : dirLoop name dir blockSize size fuel i index = some r) (d : Nat) :
    dirLoop name dir blockSize size (fuel + d) i index = some r := by
  induction fuel generalizing i index with
  | zero => cases h
  | succ fuel ih =>
    rw [Nat.succ_add, dirLoop]
    rw [dirLoop] at h
    split_ifs at h ⊢ with hin
    · cases hblock : blockLoop name (dir index) (maxOffset blockSize size i) fuel 0 with
      | none =>
        rw [hblock] at h
        cases h
      | some got =>
        rw [hblock] at h
        rw [blockLoop_mono hblock d]
        cases got with
        | none => exact ih h
        | some offset => exact h
    · exact h

theorem u32_next_block (k blockSize : Nat) :
    u32 (u32 (k * blockSize) + blockSize) = u32 ((k + 1) * blockSize) := by
  rw [u32, u32, u32, Nat.mod_add_mod, Nat.add_one_mul]

/-- What the search has done when it ends: it has got through some blocks, and then found the entry
in the next one, or come to the end of the directory. -/
theorem dirLoop_some {k : Nat} {r : Option (Nat × Nat)}
    (h : dirLoop name dir blockSize size fuel (u32 (k * blockSize)) k = some r) :
    ∃ n ≥ k, (∀ j, k ≤ j → j < n → u32 (j * blockSize) < size ∧
        Passes name (dir j) (blockBound blockSize size j)) ∧
      (r = none ∧ size ≤ u32 (n * blockSize) ∨
        ∃ o, r = some (n, o) ∧ u32 (n * blockSize) < size ∧
          Hits name (dir n) (blockBound blockSize size n) o) := by
  induction fuel generalizing k with
  | zero => cases h
  | succ fuel ih =>
    rw [dirLoop] at h
    have hbound := maxOffset_lt blockSize size (u32 (k * blockSize))
    split_ifs at h with hin
    · cases hblock : blockLoop name (dir k) (maxOffset blockSize size (u32 (k * blockSize)))
          fuel 0 with
      | none =>
        rw [hblock] at h
        cases h
      | some got =>
        rw [hblock] at h
        cases got with
        | none =>
          dsimp only at h
          rw [u32_next_block] at h
          obtain ⟨n, hn, hpass, hend⟩ := ih h
          refine ⟨n, Nat.le_of_succ_le hn, fun j hkj hj => ?_, hend⟩
          obtain rfl | hlt := Nat.eq_or_lt_of_le hkj
          · exact ⟨hin, (passes_iff hbound).mpr ⟨fuel, hblock⟩⟩
          · exact hpass j hlt hj
        | some offset =>
          obtain rfl := Option.some.inj h
          refine ⟨k, Nat.le_refl k, fun j hkj hj => absurd hkj (Nat.not_le.mpr hj),
            Or.inr ⟨offset, rfl, hin, ?_⟩⟩
          exact blockLoop_some hbound .first hblock offset rfl
    · obtain rfl := Option.some.inj h
      exact ⟨k, Nat.le_refl k, fun j hkj hj => absurd hkj (Nat.not_le.mpr hj),
        Or.inl ⟨rfl, Nat.le_of_not_lt hin⟩⟩

/-- The search gets through the blocks that it passes. -/
theorem dirLoop_passes {k d : Nat} {r : Option (Nat × Nat)}
    (hpass : ∀ j, k ≤ j → j < k + d → u32 (j * blockSize) < size ∧
      Passes name (dir j) (blockBound blockSize size j))
    (h : ∃ fuel, dirLoop name dir blockSize size fuel (u32 ((k + d) * blockSize)) (k + d) =
      some r) :
    ∃ fuel, dirLoop name dir blockSize size fuel (u32 (k * blockSize)) k = some r := by
  induction d generalizing k with
  | zero => exact h
  | succ d ih =>
    obtain ⟨fuel, hrest⟩ := @ih (k + 1)
      (fun j hkj hj => hpass j (by omega) (by omega))
      (by rwa [show k + 1 + d = k + (d + 1) by omega])
    obtain ⟨hin, hblock⟩ := hpass k (Nat.le_refl k) (by omega)
    obtain ⟨fuel', hfuel⟩ := (passes_iff (maxOffset_lt _ _ _)).mp hblock
    refine ⟨fuel' + fuel + 1, ?_⟩
    have hrest' := dirLoop_mono hrest fuel'
    rw [dirLoop, if_pos hin]
    rw [blockLoop_mono hfuel fuel]
    dsimp only
    rw [u32_next_block, Nat.add_comm fuel' fuel, hrest']

/-! ## When the search keeps its promise -/

/-- An entry lies inside the size of a directory: its record and its name. -/
def EntryInside (dir : Nat → Memory) (blockSize size : Nat) (found : Nat × Nat) : Prop :=
  found.1 * blockSize + found.2 + deRecLen (dir found.1) found.2 ≤ size ∧
    found.1 * blockSize + found.2 + 8 + deNameLen (dir found.1) found.2 ≤ size

/-- The search ends, and an entry that it returns lies inside the directory, has the name and has an
inode number. -/
def FindsSafely (name : List UInt8) (dir : Nat → Memory) (blockSize size : Nat) : Prop :=
  ∃ fuel r, ext2FindEntry name dir blockSize size fuel = some r ∧
    ∀ found, r = some found → EntryInside dir blockSize size found ∧
      deName (dir found.1) found.2 (deNameLen (dir found.1) found.2) = name ∧
      deInode (dir found.1) found.2 ≠ 0

theorem ext2MatchEntry_spec (h : ext2MatchEntry name data o = true) :
    deName data o (deNameLen data o) = name ∧ deInode data o ≠ 0 := by
  rw [ext2MatchEntry, Bool.and_eq_true, Bool.and_eq_true, decide_eq_true_eq, decide_eq_true_eq,
    decide_eq_true_eq] at h
  obtain ⟨⟨hinode, hlen⟩, hname⟩ := h
  rw [hlen] at hname
  exact ⟨hname, hinode⟩

/-- The start of a block leaves room for the block. -/
theorem u32_block_le {blockShift : Nat} (hshift : blockShift < 32) (n : Nat) :
    u32 (n * 2 ^ blockShift) ≤ 2 ^ 32 - 2 ^ blockShift := by
  have hpow : 2 ^ 32 = 2 ^ (32 - blockShift) * 2 ^ blockShift := by
    rw [← Nat.pow_add, Nat.sub_add_cancel hshift.le]
  have hlt := Nat.mod_lt n (Nat.two_pow_pos (32 - blockShift))
  have hle := Nat.mul_le_mul_right (2 ^ blockShift) (Nat.le_sub_one_of_lt hlt)
  rw [Nat.sub_mul, Nat.one_mul, ← hpow] at hle
  rw [u32, hpow, Nat.mul_mod_mul_right]
  rwa [← hpow]

/-- The search gets through the blocks in front of one, and finds the entry that it hits there. -/
theorem ext2FindEntry_hits {blockShift n : Nat} (hsize : size < 2 ^ 32)
    (hn : n * 2 ^ blockShift < size)
    (hpass : ∀ k < n, Passes name (dir k) (blockBound (2 ^ blockShift) size k))
    (hhit : Hits name (dir n) (blockBound (2 ^ blockShift) size n) o) :
    ∃ fuel, ext2FindEntry name dir (2 ^ blockShift) size fuel = some (some (n, o)) := by
  have hword : ∀ k ≤ n, u32 (k * 2 ^ blockShift) = k * 2 ^ blockShift := by
    intro k hk
    have hle := Nat.mul_le_mul_right (2 ^ blockShift) hk
    exact u32_of_lt (by omega)
  obtain ⟨fuel, hblock⟩ := hhit.blockLoop (maxOffset_lt _ _ _)
  obtain ⟨fuel', hfuel⟩ := @dirLoop_passes name dir (2 ^ blockShift) size 0 n (some (n, o))
    (fun j _ hj => by
      rw [Nat.zero_add] at hj
      have hle := Nat.mul_le_mul_right (2 ^ blockShift) hj.le
      rw [hword j hj.le]
      exact ⟨by omega, hpass j hj⟩)
    ⟨fuel + 1, by
      rw [Nat.zero_add, dirLoop, hblock, if_pos]
      rw [hword n (Nat.le_refl n)]
      exact hn⟩
  rw [Nat.zero_mul] at hfuel
  exact ⟨fuel', hfuel⟩

/-- The search keeps its promise in two cases. Either it gets through all blocks of the directory,
and the size rounded up to blocks has 32 bits; or it gets through the blocks in front of one that
begins inside the directory, and there it hits an entry that ends inside the directory. -/
theorem ext2_find_entry_iff (name : List UInt8) (dir : Nat → Memory) (blockShift size : Nat)
    (hshift : blockShift < 32) (hsize : size < 2 ^ 32) :
    FindsSafely name dir (2 ^ blockShift) size ↔
      (size ≤ 2 ^ 32 - 2 ^ blockShift ∧ ∀ k, k * 2 ^ blockShift < size →
        Passes name (dir k) (blockBound (2 ^ blockShift) size k)) ∨
      ∃ n o, n * 2 ^ blockShift < size ∧
        (∀ k < n, Passes name (dir k) (blockBound (2 ^ blockShift) size k)) ∧
        Hits name (dir n) (blockBound (2 ^ blockShift) size n) o ∧
        EntryInside dir (2 ^ blockShift) size (n, o) := by
  have hpos : 0 < 2 ^ blockShift := Nat.two_pow_pos _
  have hword : ∀ k, k * 2 ^ blockShift < 2 ^ 32 → u32 (k * 2 ^ blockShift) = k * 2 ^ blockShift :=
    fun k hk => u32_of_lt hk
  have hstart : ∀ fuel r, ext2FindEntry name dir (2 ^ blockShift) size fuel = some r ↔
      dirLoop name dir (2 ^ blockShift) size fuel (u32 (0 * 2 ^ blockShift)) 0 = some r := by
    intro fuel r
    rw [Nat.zero_mul]
    exact Iff.rfl
  constructor
  · rintro ⟨fuel, r, hfind, hgood⟩
    rw [hstart] at hfind
    obtain ⟨n, -, hpass, ⟨rfl, hend⟩ | ⟨o, rfl, hin, hhit⟩⟩ := dirLoop_some hfind
    · refine Or.inl ⟨hend.trans (u32_block_le hshift n), fun k hk => (hpass k (Nat.zero_le k) ?_).2⟩
      by_contra hge
      have hle := Nat.mul_le_mul_right (2 ^ blockShift) (Nat.le_of_not_lt hge)
      rw [hword n (by omega)] at hend
      omega
    · obtain ⟨hinside, -, -⟩ := hgood _ rfl
      have hname := hinside.2
      dsimp only at hname
      exact Or.inr ⟨n, o, by omega, fun k hk => (hpass k (Nat.zero_le k) hk).2, hhit, hinside⟩
  · rintro (⟨hround, hpass⟩ | ⟨n, o, hn, hpass, hhit, hinside⟩)
    · -- the end of the directory
      obtain ⟨n, hn, hbefore⟩ : ∃ n, (size ≤ n * 2 ^ blockShift ∧ n * 2 ^ blockShift < 2 ^ 32) ∧
          ∀ j < n, j * 2 ^ blockShift < size := by
        refine ⟨(size + 2 ^ blockShift - 1) / 2 ^ blockShift, ⟨?_, ?_⟩, fun j hj => ?_⟩
        · have hdiv := Nat.div_add_mod' (size + 2 ^ blockShift - 1) (2 ^ blockShift)
          have hmod := Nat.mod_lt (size + 2 ^ blockShift - 1) hpos
          omega
        · have hle := Nat.div_mul_le_self (size + 2 ^ blockShift - 1) (2 ^ blockShift)
          have hmax : 2 ^ blockShift ≤ 2 ^ 32 := Nat.pow_le_pow_right (by decide) hshift.le
          omega
        · have hle := (Nat.le_div_iff_mul_le hpos).mp hj
          rw [Nat.succ_mul] at hle
          omega
      obtain ⟨fuel, hfuel⟩ := @dirLoop_passes name dir (2 ^ blockShift) size 0 n none
        (fun j _ hj => by
          rw [Nat.zero_add] at hj
          have hlt := hbefore j hj
          rw [hword j (by omega)]
          exact ⟨hlt, hpass j hlt⟩)
        ⟨1, by
          rw [Nat.zero_add, dirLoop, if_neg]
          rw [hword n hn.2]
          exact Nat.not_lt.mpr hn.1⟩
      exact ⟨fuel, none, (hstart fuel none).mpr hfuel, fun found h => (nomatch h)⟩
    · -- the entry in block `n`
      obtain ⟨fuel, hfuel⟩ := ext2FindEntry_hits hsize hn hpass hhit
      refine ⟨fuel, some (n, o), hfuel, fun found h => ?_⟩
      obtain rfl := Option.some.inj h
      exact ⟨hinside, ext2MatchEntry_spec hhit.2.2⟩

/-! ## Examples -/

/-- A directory with two entries. -/
def twoEntries : Nat → Memory := fun _ i =>
  [5, 0, 0, 0, 12, 0, 1, 1, 0x61, 0, 0, 0, 6, 0, 0, 0, 0xf4, 3, 2, 1, 0x62, 0x63].getD i 0

/-- The second one is found behind the first in a directory of one block. -/
theorem ext2_find_entry_iff_two : FindsSafely [0x62, 0x63] twoEntries (2 ^ 10) 1024 :=
  (ext2_find_entry_iff [0x62, 0x63] twoEntries 10 1024 (by decide) (by decide)).mpr
    (Or.inr ⟨0, 12, by decide, fun k hk => absurd hk (Nat.not_lt_zero k),
      ⟨.next .first ⟨by decide, by decide⟩ (by decide), ⟨by decide, by decide⟩, by decide⟩,
      by decide, by decide⟩)

/-- A directory whose blocks are empty. -/
def emptyDir : Nat → Memory := fun _ _ => 0

/-- A record of the length 0 is looked at for ever. -/
theorem ext2_find_entry_stuck : ¬∀ (name : List UInt8) (dir : Nat → Memory)
    (blockShift size : Nat), blockShift < 32 → size < 2 ^ 32 →
      FindsSafely name dir (2 ^ blockShift) size := by
  intro h
  obtain ⟨fuel, r, hfind, -⟩ := h [0x61] emptyDir 10 1024 (by decide) (by decide)
  have hzero : deRecLen (emptyDir 0) 0 = 0 := by decide
  have hstuck : ∀ fuel, blockLoop [0x61] (emptyDir 0) (maxOffset (2 ^ 10) 1024 0) fuel 0 = none :=
    blockLoop_stuck (maxOffset_lt _ _ _) (Nat.zero_le _)
      ⟨by decide, by rw [hzero]; exact Nat.zero_le _⟩ (by decide) hzero
  rw [ext2FindEntry] at hfind
  cases fuel with
  | zero => cases hfind
  | succ fuel =>
    rw [dirLoop, if_pos (by decide), hstuck] at hfind
    cases hfind

end Liigboot.Fs.Ext2
