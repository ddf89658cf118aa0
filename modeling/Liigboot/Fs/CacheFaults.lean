import Liigboot.Fs.Cache

/-!
# Reads that fail

`get_cache` labels a descriptor before it reads the block, and `getoneblk` drops the number of
sectors that were read. So the labels are right as long as no read fails, and the first one that
does leaves whatever was in the buffer under the new label.
-/

namespace Liigboot.Fs.Cache

/-- The result of `rdwr_sectors`, and the bytes that the buffer has behind these sectors. -/
structure Read where
  done : Nat
  left : Nat → UInt8

/-- `getoneblk`, with a read that may fail. -/
def getoneblkFrom (disk : Disk) (dev : Device) (r : Read) (buf : Nat) (block : UInt64)
    (mem : Nat → UInt8) : Nat → UInt8 := fun a =>
  if buf ≤ a ∧ a < buf + dev.blockBytes then
    if a - buf < r.done * dev.sectorSize then blockByte disk dev block (a - buf)
    else r.left (a - buf)
  else mem a

/-- `get_cache`, with a read that may fail. -/
def getCacheFrom (disk : Disk) (dev : Device) (r : Read) (s : State) (block : UInt64) :
    Nat × State :=
  let found := getCacheBlock dev s block
  let cs := found.1
  let s := found.2
  if s.block cs ≠ block then
    let s := s.setBlock cs block
    (s.data cs, { s with mem := getoneblkFrom disk dev r (s.data cs) block s.mem })
  else (s.data cs, s)

variable {disk : Disk} {dev : Device} {s : State} {lru : List Nat} {b : UInt64} {r : Read}

/-- A descriptor has the label. -/
def Hit (dev : Device) (s : State) (b : UInt64) : Prop :=
  ∃ i < dev.cacheEntries, s.block (.entry i) = b

/-- A request is a hit, or its read does not fail. -/
def Succeeds (dev : Device) (s : State) (b : UInt64) (r : Read) : Prop :=
  Hit dev s b ∨ r.done = dev.secPerBlock

/-- Every label is right. -/
def Coherent (disk : Disk) (dev : Device) (blockSizeShift : Nat) (s : State) : Prop :=
  ∀ i < dev.cacheEntries, s.block (.entry i) ≠ noBlock →
    Holds disk dev blockSizeShift s (.entry i) (s.block (.entry i))

/-- The states of a cache whose requests all meet a condition on the state, the block and the
read. One descriptor stays unlocked. -/
inductive Runs (disk : Disk) (dev : Device) (start : State) (ok : State → UInt64 → Read → Prop) :
    State → Prop
  | init : Runs disk dev start ok start
  | get {s : State} {b : UInt64} {r : Read} (h : Runs disk dev start ok s) (hb : b ≠ noBlock)
      (hok : ok s b r) : Runs disk dev start ok (getCacheFrom disk dev r s b).2
  | lock {s : State} {i j : Nat} (h : Runs disk dev start ok s) (hi : i < dev.cacheEntries)
      (hu : s.next (.entry i) ≠ .null) (hj : j < dev.cacheEntries)
      (hk : s.next (.entry j) ≠ .null) (hne : j ≠ i) :
      Runs disk dev start ok (cacheLockBlock s (.entry i))

variable {cacheData cacheSize sectorSize blockSizeShift : Nat} {s₀ start : State}

theorem getoneblkFrom_eq (h : r.done = dev.secPerBlock) (buf : Nat) (b : UInt64)
    (mem : Nat → UInt8) : getoneblkFrom disk dev r buf b mem = getoneblk disk dev buf b mem := by
  funext a
  rw [getoneblkFrom, getoneblk]
  split_ifs with hin hdone
  · rfl
  · rw [h, ← Device.blockBytes] at hdone
    omega
  · rfl

/-- A request that succeeds is one without failures. -/
theorem getCacheFrom_eq (hi : Inv disk dev s lru) (hne : lru ≠ []) (h : Succeeds dev s b r) :
    getCacheFrom disk dev r s b = getCache disk dev s b := by
  obtain ⟨i, s', lru', hget, -, hblock, hlt, hmiss, -⟩ := getCacheBlock_inv hi hne b
  rw [getCacheFrom, getCache, hget]
  dsimp only
  rcases h with ⟨j, hj, hjb⟩ | hdone
  · have hhit : s'.block (.entry i) = b := by
      rw [hblock]
      by_contra hother
      exact hmiss hother j hj hjb
    rw [if_neg (not_not.mpr hhit), if_neg (not_not.mpr hhit)]
  · rw [getoneblkFrom_eq hdone]

/-- The invariant along a run without failures. -/
theorem Runs.inv
    (hinit : cacheInit cacheData cacheSize sectorSize blockSizeShift s₀ = some (dev, start))
    (hn : 1 ≤ dev.cacheEntries) (h : Runs disk dev start (Succeeds dev) s) :
    ∃ lru, lru ≠ [] ∧ Inv disk dev s lru := by
  induction h with
  | init => exact ⟨_, range_ne_nil hn, (cacheInit_inv disk hinit).1⟩
  | get h hb hok ih =>
    obtain ⟨lru, hne, hi⟩ := ih
    obtain ⟨i, s', lru', hget, -, -, hi', hperm, -⟩ := getCache_inv hi hne hb
    rw [getCacheFrom_eq hi hne hok, hget]
    exact ⟨lru', fun heq => hne (heq ▸ hperm).symm.eq_nil, hi'⟩
  | lock h hi hu hj hk hne ih =>
    obtain ⟨lru, -, hinv⟩ := ih
    obtain ⟨xs, ys, rfl⟩ := List.append_of_mem ((hinv.unlocked _).mpr ⟨hi, hu⟩)
    have hmem := (hinv.unlocked _).mpr ⟨hj, hk⟩
    refine ⟨xs ++ ys, fun heq => ?_, hinv.lock⟩
    rw [List.perm_middle.mem_iff, heq] at hmem
    exact hne (List.mem_singleton.mp hmem)

/-- What a read that fails leaves under the new label. -/
theorem getCacheFrom_miss (hi : Inv disk dev s lru) (hne : lru ≠ []) (hmiss : ¬Hit dev s b) :
    ∃ i < dev.cacheEntries, (getCacheFrom disk dev r s b).2.block (.entry i) = b ∧
      ∀ k < dev.blockBytes, r.done * dev.sectorSize ≤ k →
        (getCacheFrom disk dev r s b).2.mem
          ((getCacheFrom disk dev r s b).2.data (.entry i) + k) = r.left k := by
  obtain ⟨i, s', lru', hget, -, hblock, hlt, -, -⟩ := getCacheBlock_inv hi hne b
  have hother : s'.block (.entry i) ≠ b := by
    rw [hblock]
    exact fun heq => hmiss ⟨i, hlt, heq⟩
  refine ⟨i, hlt, ?_⟩
  rw [getCacheFrom, hget]
  dsimp only
  rw [if_pos hother]
  refine ⟨Function.update_self _ _ _, fun k hk hdone => ?_⟩
  change getoneblkFrom disk dev r (s'.data (.entry i)) b s'.mem (s'.data (.entry i) + k) = _
  rw [getoneblkFrom, if_pos ⟨Nat.le_add_right _ _, Nat.add_lt_add_left hk _⟩,
    Nat.add_sub_cancel_left, if_neg (Nat.not_lt.mpr hdone)]

/-- In a run without failing reads every label is right, and a hit returns the block, as long as
a block fits in 16 bits and consists of whole sectors. The next read that fails may leave other
bytes under the label. -/
theorem coherent_of_succeeds
    (hinit : cacheInit cacheData cacheSize sectorSize blockSizeShift s₀ = some (dev, start))
    (hn : 1 ≤ dev.cacheEntries) (hsizes : WholeBlocks sectorSize blockSizeShift)
    (h : Runs disk dev start (Succeeds dev) s) :
    Coherent disk dev blockSizeShift s ∧
      (∀ b r, b ≠ noBlock → Hit dev s b → BlockAt disk dev.sectorSize blockSizeShift
        (getCacheFrom disk dev r s b).2.mem (getCacheFrom disk dev r s b).1 b) ∧
      ∀ b n, b ≠ noBlock → ¬Hit dev s b → n < dev.secPerBlock →
        ∃ left, ¬Coherent disk dev blockSizeShift (getCacheFrom disk dev ⟨n, left⟩ s b).2 := by
  have hbytes := (blockBytes_eq_iff hinit).mpr hsizes
  obtain ⟨lru, hne, hi⟩ := h.inv hinit hn
  refine ⟨fun i hlt hb => (hi.coherent i hlt hb).holds hbytes, fun b r hb hhit => ?_,
    fun b n hb hmiss hn => ?_⟩
  · rw [getCacheFrom_eq hi hne (Or.inl hhit)]
    exact hi.returns hne hbytes b hb
  · refine ⟨fun k => diskByte disk dev.sectorSize (b.toNat * 2 ^ blockSizeShift + k) + 1,
      fun hcoherent => ?_⟩
    obtain ⟨i, hlt, hlabel, hleft⟩ := @getCacheFrom_miss disk dev s lru b
      ⟨n, fun k => diskByte disk dev.sectorSize (b.toNat * 2 ^ blockSizeShift + k) + 1⟩ hi hne hmiss
    have hsize : 0 < dev.sectorSize := by
      refine Nat.pos_of_ne_zero fun hzero => ?_
      rw [Device.secPerBlock, hzero, Nat.div_zero] at hn
      exact Nat.not_lt_zero n hn
    have hk : n * dev.sectorSize < dev.blockBytes := Nat.mul_lt_mul_of_pos_right hn hsize
    have hbyte := hcoherent i hlt (hlabel.symm ▸ hb) (n * dev.sectorSize) (hbytes ▸ hk)
    rw [hleft _ hk le_rfl, hlabel] at hbyte
    exact absurd hbyte (by simp)

/-- A cache whose first request is read as a whole. -/
theorem coherent_of_succeeds_sample : ∃ s : State,
    s.block (.entry 0) = 5 ∧ Coherent sampleDisk sampleDevice 1 s := by
  have hrun : (cacheInit 0 64 2 1 sampleState).map (fun r =>
      (r.1, (getCacheFrom sampleDisk sampleDevice ⟨1, fun _ => 0⟩ r.2 5).2.block (.entry 0))) =
      some (sampleDevice, 5) := by
    decide +kernel
  obtain ⟨⟨dev, s⟩, hinit, hresult⟩ := Option.map_eq_some_iff.mp hrun
  obtain ⟨rfl, hlabel⟩ := Prod.ext_iff.mp hresult
  exact ⟨_, hlabel, (coherent_of_succeeds hinit (by decide) ⟨by decide, by decide⟩
    (Runs.init.get (by decide) (Or.inr rfl))).1⟩

/-- A first request whose read fails. -/
theorem failed_read_not_coherent : ¬∀ (disk : Disk) (cacheData cacheSize sectorSize
    blockSizeShift : Nat) (s₀ : State) (dev : Device) (start s : State),
    cacheInit cacheData cacheSize sectorSize blockSizeShift s₀ = some (dev, start) →
    Runs disk dev start (fun _ _ _ => True) s → Coherent disk dev blockSizeShift s := by
  intro h
  have hrun : (cacheInit 0 64 2 1 sampleState).map (fun r =>
      let s := (getCacheFrom sampleDisk sampleDevice ⟨0, fun _ => 0⟩ r.2 5).2
      (r.1, s.block (.entry 0), s.mem (s.data (.entry 0) + 0))) =
      some (sampleDevice, 5, 0) := by
    decide +kernel
  obtain ⟨⟨dev, s⟩, hinit, hresult⟩ := Option.map_eq_some_iff.mp hrun
  obtain ⟨rfl, hheld⟩ := Prod.ext_iff.mp hresult
  obtain ⟨hlabel, hbyte⟩ := Prod.ext_iff.mp hheld
  dsimp only at hlabel hbyte
  have hcoherent := h sampleDisk _ _ _ _ _ _ _ _ hinit
    (Runs.init.get (b := 5) (r := ⟨0, fun _ => 0⟩) (by decide) trivial)
  have hholds := hcoherent 0 (by decide) (by rw [hlabel]; decide) 0 (by decide)
  rw [hlabel, hbyte] at hholds
  exact absurd hholds (by decide)

end Liigboot.Fs.Cache
