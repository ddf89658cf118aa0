import Liigboot.Fs.Cache
import Liigboot.Fs.Extent
import Liigboot.Lib.Tiling

/-!
# The layout of the block cache

The buffer of the cache begins with a data area for each block. Behind them lie the descriptor of
the head and those of the blocks. The place of the descriptors is computed from the shift, the
places of the data areas from the block size, which is kept in 16 bits.
-/

namespace Liigboot.Fs.Cache

/-! ## The source -/

/-- `dev->cache_head`, where `cache_init` puts it. -/
def Device.cacheHead (dev : Device) (blockSizeShift : Nat) : Nat :=
  u32 (dev.cacheData + u32 (dev.cacheEntries * 2 ^ blockSizeShift))

/-- The address of `n` descriptors behind the head; that of block `i` is `i + 1` behind it. -/
def Device.descriptor (dev : Device) (blockSizeShift n : Nat) : Nat :=
  u32 (dev.cacheHead blockSizeShift + n * structSize)

/-! ## Regions -/

/-- Some bytes of memory. -/
structure Region where
  start : Nat
  length : Nat

/-- One region ends in front of the other. -/
def Region.Apart (a b : Region) : Prop :=
  a.start + a.length ≤ b.start ∨ b.start + b.length ≤ a.start

/-- A region lies inside another one. -/
def Region.Inside (a b : Region) : Prop :=
  b.start ≤ a.start ∧ a.start + a.length ≤ b.start + b.length

/-- The data area of a block, where its descriptor says. -/
def dataArea (s : State) (blockSizeShift i : Nat) : Region :=
  ⟨s.data (.entry i), 2 ^ blockSizeShift⟩

/-- The regions of a cache: the data areas, and the descriptors from the head on. -/
def regions (dev : Device) (s : State) (blockSizeShift : Nat) : List Region :=
  (List.range dev.cacheEntries).map (dataArea s blockSizeShift) ++
    (List.range (dev.cacheEntries + 1)).map fun n =>
      ⟨dev.descriptor blockSizeShift n, structSize⟩

/-- The regions are apart, and lie inside the buffer. -/
def LaidOut (dev : Device) (s : State) (cacheSize blockSizeShift : Nat) : Prop :=
  (regions dev s blockSizeShift).Pairwise Region.Apart ∧
    ∀ r ∈ regions dev s blockSizeShift, r.Inside ⟨dev.cacheData, cacheSize⟩

variable {dev : Device} {s s₀ : State} {cacheData cacheSize sectorSize blockSizeShift : Nat}

/-- What a cache that is not too small looks like. -/
structure Fields (dev : Device) (s : State) (base cacheSize blockSizeShift : Nat) : Prop where
  cacheData : dev.cacheData = base
  blockSize : dev.cacheBlockSize = 2 ^ blockSizeShift % 2 ^ 16
  entries : dev.cacheEntries =
    (cacheSize - structSize) / (dev.cacheBlockSize + structSize) % 2 ^ 16
  data : ∀ i < dev.cacheEntries, s.data (.entry i) = base + i * dev.cacheBlockSize
  room : dev.cacheBlockSize + 2 * structSize ≤ cacheSize

theorem cacheInit_fields
    (h : cacheInit cacheData cacheSize sectorSize blockSizeShift s₀ = some (dev, s)) :
    Fields dev s cacheData cacheSize blockSizeShift := by
  have hdata := (cacheInit_inv (fun _ _ => 0) h).1.buffers
  rw [cacheInit] at h
  split_ifs at h with hsmall
  obtain ⟨rfl, -⟩ := Prod.mk.inj (Option.some.inj h)
  exact ⟨rfl, rfl, rfl, hdata, Nat.le_of_not_lt hsmall⟩

/-- The regions are laid out when the data areas, if there are any, lie one behind the other, and
leave room for the descriptors. -/
theorem laidOut_of_room (hdata : ∀ i < dev.cacheEntries,
      s.data (.entry i) = dev.cacheData + i * 2 ^ blockSizeShift)
    (hroom : dev.cacheEntries * 2 ^ blockSizeShift + (dev.cacheEntries + 1) * structSize ≤
      cacheSize)
    (hmem : dev.cacheData + cacheSize ≤ 2 ^ 32) : LaidOut dev s cacheSize blockSizeShift := by
  have hstruct : 0 < structSize := by decide
  rw [Nat.succ_mul] at hroom
  have hhead : dev.cacheHead blockSizeShift =
      dev.cacheData + dev.cacheEntries * 2 ^ blockSizeShift := by
    rw [Device.cacheHead, u32_of_lt (show dev.cacheEntries * 2 ^ blockSizeShift < 2 ^ 32 by omega)]
    exact u32_of_lt (by omega)
  have htiles : Tiles Region.start Region.length dev.cacheData (regions dev s blockSizeShift)
      (dev.cacheData + dev.cacheEntries * 2 ^ blockSizeShift +
        (dev.cacheEntries + 1) * structSize) := by
    refine tiles_append.mpr ⟨_, tiles_range fun i hi => ⟨hdata i hi, rfl⟩,
      tiles_range fun n hn => ⟨?_, rfl⟩⟩
    have hle := Nat.mul_le_mul_right structSize (Nat.le_of_lt_succ hn)
    change dev.descriptor blockSizeShift n = _
    rw [Device.descriptor, hhead]
    exact u32_of_lt (by omega)
  refine ⟨htiles.pairwise.imp fun hle => Or.inl hle, fun r hr => ?_⟩
  obtain ⟨hlow, hhigh⟩ := htiles.mem_le hr
  refine ⟨hlow, hhigh.trans ?_⟩
  rw [Nat.succ_mul]
  dsimp only
  omega

/-- When the block size has 16 bits, the entries leave room for the descriptors. -/
theorem Fields.laidOut (h : Fields dev s cacheData cacheSize blockSizeShift)
    (hshift : blockSizeShift < 16) (hmem : cacheData + cacheSize ≤ 2 ^ 32) :
    LaidOut dev s cacheSize blockSizeShift := by
  have hsize : dev.cacheBlockSize = 2 ^ blockSizeShift := by
    rw [h.blockSize]
    exact Nat.mod_eq_of_lt (Nat.pow_lt_pow_right (by decide) hshift)
  refine laidOut_of_room (fun i hi => ?_) ?_ (h.cacheData ▸ hmem)
  · rw [h.data i hi, h.cacheData, hsize]
  · have hentries := h.entries
    have hroom := h.room
    have hle : dev.cacheEntries * (2 ^ blockSizeShift + structSize) ≤ cacheSize - structSize := by
      rw [hentries, hsize]
      exact (Nat.mul_le_mul_right _ (Nat.mod_le _ _)).trans (Nat.div_mul_le_self _ _)
    rw [Nat.mul_add] at hle
    rw [Nat.succ_mul]
    omega

/-- The number of entries that is computed with a block size of 0. -/
def entriesOfZero (cacheSize : Nat) : Nat := (cacheSize - structSize) / structSize % 2 ^ 16

/-- When the block size has more than 16 bits, all data areas begin at the start of the buffer. -/
theorem Fields.laidOut_iff (h : Fields dev s cacheData cacheSize blockSizeShift)
    (hshift : 16 ≤ blockSizeShift) (hlt : blockSizeShift < 32)
    (hmem : cacheData + cacheSize ≤ 2 ^ 32) :
    LaidOut dev s cacheSize blockSizeShift ↔ entriesOfZero cacheSize = 0 ∨
      entriesOfZero cacheSize = 1 ∧ 2 ^ blockSizeShift + 2 * structSize ≤ cacheSize := by
  have hzero : dev.cacheBlockSize = 0 := by
    rw [h.blockSize]
    exact Nat.mod_eq_zero_of_dvd (Nat.pow_dvd_pow 2 hshift)
  have hentries : dev.cacheEntries = entriesOfZero cacheSize := by
    rw [h.entries, hzero, Nat.zero_add, entriesOfZero]
  have hdata : ∀ i < dev.cacheEntries, s.data (.entry i) = dev.cacheData := by
    intro i hi
    rw [h.data i hi, hzero, Nat.mul_zero, Nat.add_zero, h.cacheData]
  have hpos := Nat.two_pow_pos blockSizeShift
  rw [← hentries]
  constructor
  · rintro ⟨hapart, hinside⟩
    rcases Nat.lt_or_ge dev.cacheEntries 2 with hfew | hmany
    · obtain hnone | hone : dev.cacheEntries = 0 ∨ dev.cacheEntries = 1 := by omega
      · exact Or.inl hnone
      · -- the only data area and the last descriptor
        refine Or.inr ⟨hone, ?_⟩
        obtain ⟨-, harea⟩ := hinside (dataArea s blockSizeShift 0)
          (List.mem_append_left _ (List.mem_map_of_mem (List.mem_range.mpr (by omega))))
        obtain ⟨hfront, hback⟩ := hinside ⟨dev.descriptor blockSizeShift 1, structSize⟩
          (List.mem_append_right _ (List.mem_map.mpr
            ⟨1, List.mem_range.mpr (by omega), rfl⟩))
        dsimp only [dataArea] at harea hfront hback
        rw [hdata 0 (by omega)] at harea
        rw [Device.descriptor, Device.cacheHead, hone, h.cacheData, u32, u32, u32] at hfront hback
        have hmax : 2 ^ blockSizeShift ≤ 2 ^ 31 :=
          Nat.pow_le_pow_right (by decide) (Nat.le_of_lt_succ hlt)
        rw [h.cacheData] at harea
        have hstruct : structSize = 20 := rfl
        omega
    · -- two data areas begin at the same place
      exfalso
      have hareas := (List.pairwise_append.mp hapart).1
      rw [List.pairwise_map] at hareas
      have hfirst := (List.pairwise_iff_getElem.mp hareas) 0 1
        (by rw [List.length_range]; omega) (by rw [List.length_range]; omega) Nat.zero_lt_one
      rw [List.getElem_range, List.getElem_range, Region.Apart, dataArea, dataArea] at hfirst
      dsimp only at hfirst
      rw [hdata 0 (by omega), hdata 1 (by omega)] at hfirst
      omega
  · rintro (hnone | ⟨hone, hroom⟩)
    · refine laidOut_of_room (fun i hi => absurd hi (hnone ▸ Nat.not_lt_zero i)) ?_
        (h.cacheData ▸ hmem)
      have hroom := h.room
      rw [hnone]
      omega
    · refine laidOut_of_room (fun i hi => ?_) ?_ (h.cacheData ▸ hmem)
      · obtain rfl : i = 0 := by omega
        rw [hdata 0 hi, Nat.zero_mul, Nat.add_zero]
      · rw [hone]
        omega

/-- The cache is unusable or laid out if and only if the block size has 16 bits, or the cache is too
small for two descriptors, or with a block size of 0 there would be no entry, or one with room for
its block. -/
theorem cache_init_laid_out_iff (cacheData cacheSize sectorSize blockSizeShift : Nat)
    (hlt : blockSizeShift < 32) (hmem : cacheData + cacheSize ≤ 2 ^ 32) :
    (∀ s₀ dev s, cacheInit cacheData cacheSize sectorSize blockSizeShift s₀ = some (dev, s) →
        LaidOut dev s cacheSize blockSizeShift) ↔
      blockSizeShift < 16 ∨ cacheSize < 2 * structSize ∨ entriesOfZero cacheSize = 0 ∨
        entriesOfZero cacheSize = 1 ∧ 2 ^ blockSizeShift + 2 * structSize ≤ cacheSize := by
  constructor
  · intro h
    rcases Nat.lt_or_ge blockSizeShift 16 with hshift | hshift
    · exact Or.inl hshift
    · rcases Nat.lt_or_ge cacheSize (2 * structSize) with hsmall | hbig
      · exact Or.inr (Or.inl hsmall)
      · have hzero : 2 ^ blockSizeShift % 2 ^ 16 = 0 :=
          Nat.mod_eq_zero_of_dvd (Nat.pow_dvd_pow 2 hshift)
        obtain ⟨⟨dev, s⟩, hinit⟩ : ∃ r, cacheInit cacheData cacheSize sectorSize blockSizeShift
            sampleState = some r := by
          rw [cacheInit, if_neg]
          · exact ⟨_, rfl⟩
          · rw [hzero]
            omega
        exact Or.inr (Or.inr (((cacheInit_fields hinit).laidOut_iff hshift hlt hmem).mp
          (h _ _ _ hinit)))
  · intro hcond s₀ dev s hinit
    have hfields := cacheInit_fields hinit
    rcases Nat.lt_or_ge blockSizeShift 16 with hshift | hshift
    · exact hfields.laidOut hshift hmem
    · have hroom := hfields.room
      rcases hcond with hlow | hsmall | hfew
      · omega
      · omega
      · exact (hfields.laidOut_iff hshift hlt hmem).mpr hfew

/-! ## Examples -/

/-- A cache of 128 KiB with blocks of 4 KiB. -/
theorem cache_init_laid_out_iff_4k :
    (∀ s₀ dev s, cacheInit 0x100000 0x20000 512 12 s₀ = some (dev, s) →
      LaidOut dev s 0x20000 12) ∧
    (cacheInit 0x100000 0x20000 512 12 sampleState).isSome :=
  ⟨(cache_init_laid_out_iff 0x100000 0x20000 512 12 (by decide) (by decide)).mpr
    (Or.inl (by decide)), rfl⟩

/-- With blocks of 64 KiB the data areas of all entries begin at the start of the buffer. -/
theorem cache_init_not_laid_out : ¬∀ (cacheData cacheSize sectorSize blockSizeShift : Nat),
    blockSizeShift < 32 → cacheData + cacheSize ≤ 2 ^ 32 → ∀ s₀ dev s,
      cacheInit cacheData cacheSize sectorSize blockSizeShift s₀ = some (dev, s) →
        LaidOut dev s cacheSize blockSizeShift := by
  intro h
  have hall := h 0x100000 0x20000 512 16 (by decide) (by decide)
  obtain ⟨⟨dev, s⟩, hinit⟩ : ∃ r, cacheInit 0x100000 0x20000 512 16 sampleState = some r :=
    ⟨_, rfl⟩
  rcases ((cacheInit_fields hinit).laidOut_iff (by decide) (by decide) (by decide)).mp
    (hall _ _ _ hinit) with hnone | ⟨hone, -⟩
  · exact absurd hnone (by decide)
  · exact absurd hone (by decide)

end Liigboot.Fs.Cache
