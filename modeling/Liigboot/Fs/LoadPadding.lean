import Liigboot.Fs.LoadMemory
import Liigboot.Lib.Masks

/-!
# The padding of `pm_load_high`

The address behind the padding is the address behind the file, and what that is beyond a multiple of
the padding unit once more. So it is a multiple when the file leaves nothing or half of the unit.
-/

namespace Liigboot.Fs

variable {σ : Type} {fs : FsInfo σ} {fuel limit n k : Nat} {callback : Bool} {s t : LoadState σ}
  {flag : LoadFlag} {map : SectorMap} {size : UInt32} {ok : σ → Prop} {regs : LoadRegs}

/-! ## Where nothing is read -/

/-- The bytes that a file delivers: none when its size wraps in whole sectors. -/
def deliverable (fs : FsInfo σ) (size : UInt32) : Nat :=
  if size.toNat + fs.sectorSize - 1 < 2 ^ 32 then size.toNat else 0

theorem deliverable_le : deliverable fs size ≤ size.toNat := by
  rw [deliverable]
  split_ifs
  · exact Nat.le_refl _
  · exact Nat.zero_le _

theorem sectorsLeft_zero {inode : Inode σ} (hsize : inode.size = size)
    (h : deliverable fs size = 0) : sectorsLeft fs inode 0 = 0 := by
  have hs := size.toNat_lt
  have hss := fs.sectorSize_lt
  have hpos := fs.sectorSize_pos
  have hleft : u32 (size.toNat + 2 ^ 32 - 0) = size.toNat := by
    rw [u32]
    omega
  have hround : u32 (size.toNat + fs.sectorSize - 1) < fs.sectorSize := by
    rw [deliverable] at h
    rw [u32]
    by_cases hfits : size.toNat + fs.sectorSize - 1 < 2 ^ 32
    · rw [if_pos hfits] at h
      omega
    · omega
  rw [sectorsLeft, hsize, hleft]
  exact Nat.div_eq_of_lt hround

/-- A read that returns nothing changes nothing. -/
theorem after_nothing {chunk : Nat} (hbuf : s.buf < 2 ^ 32) :
    s.after ⟨[], s.inode, s.offset, none⟩ chunk = s := by
  rw [LoadState.after]
  simp only [List.length_nil, Nat.zero_min, Nat.add_zero, Nat.sub_zero, Option.getD_none,
    List.take_nil, List.append_nil, u32_of_lt hbuf]

/-- A file of which no sectors are left is not read, and nothing is stored. When the loop ends, it
does so at once. -/
theorem loop_idle (hleft : sectorsLeft fs s.inode s.offset = 0) (hbuf : s.buf < 2 ^ 32)
    (hrun : runLoop (loadStep fs fuel limit callback) n s = some (flag, t)) :
    t.buf = s.buf ∧ loopStores fs fuel limit callback n s = [] := by
  have hnone : min (s.request fs limit callback) (sectorsLeft fs s.inode s.offset) = 0 := by
    rw [hleft, Nat.min_zero]
  have hgot : genericGetfssec fs fuel s.inode s.offset (s.request fs limit callback) =
      some ⟨[], s.inode, s.offset, none⟩ := by
    rw [genericGetfssec]
    exact if_pos hnone
  have hbuffer : readBuffer fs fuel s.inode s.offset (s.request fs limit callback) = [] := by
    rw [readBuffer]
    exact if_pos hnone
  have hstores : s.stores fs fuel limit callback = [] := by
    rw [LoadState.stores, hbuffer]
    split_ifs
    · rfl
    · rfl
    · rfl
  cases n with
  | zero => cases hrun
  | succ n =>
    have hstuck := @runLoop_stuck _ _ (loadStep fs fuel limit callback) s
    rw [loopStores, hstores]
    rw [runLoop] at hrun
    obtain ⟨-, hstep⟩ | ⟨-, -, hstep⟩ | ⟨-, -, ⟨hhang, -⟩ | ⟨got, hgot', hstep⟩⟩ :=
      @loadStep_cases _ fs fuel limit callback s
    · rw [hstep] at hrun ⊢
      obtain ⟨-, rfl⟩ := Prod.mk.inj (Option.some.inj hrun)
      exact ⟨rfl, rfl⟩
    · rw [hstep] at hrun ⊢
      obtain ⟨-, rfl⟩ := Prod.mk.inj (Option.some.inj hrun)
      exact ⟨rfl, rfl⟩
    · rw [hgot] at hhang
      cases hhang
    · rw [hgot] at hgot'
      obtain rfl := Option.some.inj hgot'
      rw [after_nothing hbuf] at hstep
      by_cases hmore : s.haveMore = true
      · rw [if_pos hmore] at hstep
        rw [hstep] at hrun
        dsimp only at hrun
        rw [hstuck hstep] at hrun
        cases hrun
      · rw [if_neg hmore] at hstep
        rw [hstep] at hrun ⊢
        obtain ⟨-, rfl⟩ := Prod.mk.inj (Option.some.inj hrun)
        exact ⟨rfl, rfl⟩

/-- Nothing is loaded where nothing is asked for. -/
theorem loop_unasked (hbytes : s.bytes = 0)
    (hrun : runLoop (loadStep fs fuel limit callback) n s = some (flag, t)) :
    t.buf = s.buf ∧ loopStores fs fuel limit callback n s = [] := by
  cases n with
  | zero => cases hrun
  | succ n =>
    have hstep : loadStep fs fuel limit callback s = .stop (.none, s) := by
      rw [loadStep, if_pos hbytes]
    rw [runLoop, hstep] at hrun
    rw [loopStores, LoadState.stores, if_pos hbytes, hstep]
    obtain ⟨-, rfl⟩ := Prod.mk.inj (Option.some.inj hrun)
    exact ⟨rfl, rfl⟩

/-- Nothing is loaded where the first sector does not fit. -/
theorem loop_full (hfits : limit < u32 (s.buf + fs.sectorSize))
    (hrun : runLoop (loadStep fs fuel limit callback) n s = some (flag, t)) :
    t.buf = s.buf ∧ loopStores fs fuel limit callback n s = [] := by
  by_cases hbytes : s.bytes = 0
  · exact loop_unasked hbytes hrun
  · cases n with
    | zero => cases hrun
    | succ n =>
      have hstep : loadStep fs fuel limit callback s = .stop (.overflow, s) := by
        rw [loadStep, if_neg hbytes, if_pos hfits]
      rw [runLoop, hstep] at hrun
      rw [loopStores, LoadState.stores, if_neg hbytes, if_pos hfits, hstep]
      obtain ⟨-, rfl⟩ := Prod.mk.inj (Option.some.inj hrun)
      exact ⟨rfl, rfl⟩

/-! ## Rounding up -/

/-- Twice a remainder is a multiple when it is nothing or half of the unit. -/
theorem dvd_two_mul_mod_iff {x unit : Nat} (hunit : 0 < unit) :
    unit ∣ x + x % unit ↔ x % unit = 0 ∨ 2 * (x % unit) = unit := by
  have hlt := Nat.mod_lt x hunit
  have hdiv := Nat.div_add_mod x unit
  have hdvd : unit ∣ x + x % unit ↔ unit ∣ 2 * (x % unit) := by
    have hsum : x + x % unit = unit * (x / unit) + 2 * (x % unit) := by omega
    rw [hsum]
    exact Nat.dvd_add_right (Nat.dvd_mul_right _ _)
  rw [hdvd]
  constructor
  · rintro ⟨q, hq⟩
    have hq2 : q < 2 := by
      by_contra hge
      have hmul : unit * 2 ≤ unit * q := Nat.mul_le_mul_left _ (Nat.le_of_not_lt hge)
      omega
    obtain rfl | rfl : q = 0 ∨ q = 1 := by omega
    · exact Or.inl (by omega)
    · exact Or.inr (by omega)
  · rintro (hzero | hhalf)
    · rw [hzero]
      exact Nat.dvd_zero _
    · rw [hhalf]

/-! ## The bytes that are loaded -/

/-- The bytes that are loaded: those that are asked for, as far as the file and the room in front of
the limit go. -/
def LoadRegs.toLoad (regs : LoadRegs) (fs : FsInfo σ) (size : UInt32) : Nat :=
  min (min regs.eax.toNat (deliverable fs size)) (sectorRoom fs regs.edi.toNat regs.limit)

/-- The start lies above the limit, and so close to 4 GiB that the test for room wraps. -/
def LoadRegs.Wraps (regs : LoadRegs) (fs : FsInfo σ) : Prop :=
  regs.limit < regs.edi.toNat ∧ u32 (regs.edi.toNat + fs.sectorSize) ≤ regs.limit

variable {pvt : σ} {garbage : Bool}

theorem loading_init (hok : ok pvt) :
    Loading fs map size ok regs.edi.toNat regs.eax.toNat regs.limit
      (loadInit regs (Inode.fresh size pvt) 0 garbage) :=
  ⟨rfl, rfl, Nat.zero_add _, Nat.zero_le _, Nat.zero_le _, Cached.fresh map size hok, fun _ => rfl,
    fun _ => ⟨Nat.zero_le _, Or.inl (Nat.dvd_zero _)⟩⟩

/-- What the loop loads, unless the test for room wraps. -/
theorem loop_loads (himpl : Implements fs map size ok) (hshift : fs.sectorShift ≤ 20)
    (hok : ok pvt) (hfuel : 2 ^ 33 ≤ fuel)
    (hwrap : regs.Wraps fs → min regs.eax.toNat (deliverable fs size) = 0)
    (hs : s = loadInit regs (Inode.fresh size pvt) 0 garbage)
    (hrun : runLoop (loadStep fs fuel regs.limit callback) n s = some (flag, t)) :
    t.buf = regs.edi.toNat + regs.toLoad fs size ∧
      (∀ x ∈ loopStores fs fuel regs.limit callback n s, x.1 < regs.limit) ∧
      ∀ mem i b, i < regs.toLoad fs size → (contents fs map size.toNat)[i]? = some b →
        putAll mem (loopStores fs fuel regs.limit callback n s) (regs.edi.toNat + i) = b := by
  have hloading : Loading fs map size ok regs.edi.toNat regs.eax.toNat regs.limit s :=
    hs ▸ loading_init hok
  have hbuf : s.buf = regs.edi.toNat := by rw [hs, loadInit]
  have hbytes : s.bytes = regs.eax.toNat := by rw [hs, loadInit]
  have hoffset : s.offset = 0 := by rw [hs, loadInit]
  have hdata : s.data.length = 0 := by rw [hs, loadInit, List.length_nil]
  have hnothing : regs.toLoad fs size = 0 → t.buf = s.buf ∧
      loopStores fs fuel regs.limit callback n s = [] →
      t.buf = regs.edi.toNat + regs.toLoad fs size ∧
      (∀ x ∈ loopStores fs fuel regs.limit callback n s, x.1 < regs.limit) ∧
      ∀ mem i b, i < regs.toLoad fs size → (contents fs map size.toNat)[i]? = some b →
        putAll mem (loopStores fs fuel regs.limit callback n s) (regs.edi.toNat + i) = b := by
    rintro hzero ⟨htbuf, hstores⟩
    rw [hzero, hstores, htbuf, hbuf]
    exact ⟨rfl, fun x hx => absurd hx List.not_mem_nil,
      fun mem i b hi => absurd hi (Nat.not_lt_zero i)⟩
  by_cases hfile : deliverable fs size = 0
  · have hidle : sectorsLeft fs s.inode s.offset = 0 := by
      rw [hoffset]
      exact sectorsLeft_zero hloading.cached.size_eq hfile
    refine hnothing ?_ (loop_idle hidle (hbuf ▸ regs.edi.toNat_lt) hrun)
    rw [LoadRegs.toLoad, hfile, Nat.min_zero, Nat.zero_min]
  · by_cases hstart : regs.edi.toNat ≤ regs.limit
    · have hsize : size.toNat + fs.sectorSize - 1 < 2 ^ 32 := by
        by_contra hwraps
        exact hfile (if_neg hwraps)
      have hdeliver : deliverable fs size = size.toNat := if_pos hsize
      obtain ⟨htbuf, hbelow, hmem⟩ := @Loading.loop _ fs fuel regs.limit callback s t flag map size
        ok _ _ himpl hsize hshift (UInt32.toNat_lt _) hfuel hstart n hloading hrun
      rw [hdata, hbuf] at hmem
      rw [LoadRegs.toLoad, hdeliver]
      refine ⟨htbuf, fun x hx => (hbelow x hx).2, fun mem i b hi hb => hmem mem i b ?_ ?_⟩
      · rw [Nat.zero_add]
        exact hi
      · rw [Nat.zero_add]
        exact hb
    · have hroom : sectorRoom fs regs.edi.toNat regs.limit = 0 := by
        have hle := @sectorRoom_le _ fs regs.limit regs.edi.toNat
        omega
      have hzero : regs.toLoad fs size = 0 := by rw [LoadRegs.toLoad, hroom, Nat.min_zero]
      by_cases hfull : regs.limit < u32 (regs.edi.toNat + fs.sectorSize)
      · exact hnothing hzero (loop_full (hbuf ▸ hfull) hrun)
      · -- nothing is asked for
        have hmin := hwrap ⟨Nat.lt_of_not_le hstart, Nat.le_of_not_lt hfull⟩
        have hnone : s.bytes = 0 := by omega
        exact hnothing hzero (loop_unasked hnone hrun)

/-- Where the test for room wraps, the first byte is stored at the start. -/
theorem loop_wraps (himpl : Implements fs map size ok) (hok : ok pvt) (hfuel : 2 ^ 33 ≤ fuel)
    (hwrap : regs.Wraps fs) (hload : min regs.eax.toNat (deliverable fs size) ≠ 0)
    (hrun : runLoop (loadStep fs fuel regs.limit callback) n
      (loadInit regs (Inode.fresh size pvt) 0 garbage) = some (flag, t)) :
    ∃ b, (regs.edi.toNat, b) ∈ loopStores fs fuel regs.limit callback n
      (loadInit regs (Inode.fresh size pvt) 0 garbage) := by
  obtain ⟨hover, htest⟩ := hwrap
  have hss := fs.sectorSize_pos
  have hsize : size.toNat + fs.sectorSize - 1 < 2 ^ 32 := by
    by_contra hwraps
    rw [deliverable, if_neg hwraps, Nat.min_zero] at hload
    exact hload rfl
  have hdeliver : deliverable fs size = size.toNat := if_pos hsize
  have hbytes : regs.eax.toNat ≠ 0 := by omega
  have hsizePos : 0 < size.toNat := by omega
  cases n with
  | zero => cases hrun
  | succ n =>
    generalize hs : loadInit regs (Inode.fresh size pvt) 0 garbage = s at hrun ⊢
    have hloading : Loading fs map size ok regs.edi.toNat regs.eax.toNat regs.limit s :=
      hs ▸ loading_init hok
    have hbuf : s.buf = regs.edi.toNat := by rw [← hs, loadInit]
    have hsbytes : s.bytes = regs.eax.toNat := by rw [← hs, loadInit]
    have hoffset : s.offset = 0 := by rw [← hs, loadInit]
    have hrequest : 0 < s.request fs regs.limit callback := by
      have hadd := @chunk_add_le _ fs regs.limit callback s
      have hchunk : 0 < s.chunk fs regs.limit callback := by
        have hedi := regs.edi.toNat_lt
        have hdiff : fs.sectorSize ≤ u32 (regs.limit + 2 ^ 32 - regs.edi.toNat) := by
          rw [u32] at htest ⊢
          have hlt := fs.sectorSize_lt
          omega
        have hroom : 0 < u32 (regs.limit + 2 ^ 32 - regs.edi.toNat) / fs.sectorSize *
            fs.sectorSize := Nat.mul_pos (Nat.div_pos hdiff hss) hss
        have hmax : 0 < maxChunk := by decide
        rw [LoadState.chunk, hbuf, hsbytes]
        split_ifs <;> omega
      rw [LoadState.request, u32_of_lt (by omega)]
      exact Nat.div_pos (by omega) hss
    obtain ⟨hzero, -⟩ | ⟨-, hnoRoom, -⟩ | ⟨hsome, hfits, -⟩ :=
      @loadStep_cases _ fs fuel regs.limit callback s
    · exact absurd (hsbytes.symm.trans hzero) hbytes
    · rw [hbuf] at hnoRoom
      exact absurd htest (Nat.not_le.mpr hnoRoom)
    · have hlt : s.request fs regs.limit callback < 2 ^ 32 :=
        Nat.lt_of_le_of_lt (Nat.div_le_self _ _) (Nat.mod_lt _ (Nat.two_pow_pos 32))
      have hboundary : AtBoundary fs size s.offset := by
        rw [hoffset]
        exact ⟨Nat.zero_le _, Or.inl (Nat.dvd_zero _)⟩
      obtain ⟨got, hgot, -, -, hdata, -, -⟩ := genericGetfssec_spec himpl hsize hloading.cached
        hboundary (show s.request fs regs.limit callback + 2 ≤ fuel by omega)
      have hlength := congrArg List.length hdata
      rw [List.length_take, List.length_drop, length_contents, hoffset] at hlength
      have hprefix := data_front hgot
      have hpos : 0 < (readBuffer fs fuel s.inode s.offset
          (s.request fs regs.limit callback)).length := by
        refine Nat.lt_of_lt_of_le ?_ hprefix.length_le
        rw [hlength, Nat.sub_zero]
        exact Nat.lt_min.mpr ⟨Nat.mul_pos hrequest hss, hsizePos⟩
      cases hbuffer : readBuffer fs fuel s.inode s.offset (s.request fs regs.limit callback) with
      | nil =>
        rw [hbuffer] at hpos
        exact absurd hpos (Nat.lt_irrefl 0)
      | cons b rest =>
        refine ⟨b, ?_⟩
        rw [loopStores, LoadState.stores, if_neg hsome, if_neg (Nat.not_lt.mpr hfits), hbuffer]
        refine List.mem_append_left _ ?_
        have haddr : (regs.edi.toNat, b) = (u32 regs.edi.toNat, b) := by
          rw [u32_of_lt regs.edi.toNat_lt]
        rw [storesFrom, storesAt, List.map_cons, hbuf]
        exact List.mem_cons.mpr (Or.inl haddr)

/-! ## The padding -/

/-- What is promised of a load, for a padding unit: the front of the file from the start on, zeros
up to the next multiple of the unit, and no store at the limit or above it. -/
structure LoadedWell (file : List UInt8) (regs : LoadRegs) (unit : Nat) (loaded : Loaded σ)
    (stores : List (Nat × UInt8)) : Prop where
  leading : ∀ mem a, regs.edi.toNat ≤ a → a < loaded.ebx.toNat →
    file[a - regs.edi.toNat]? = some (putAll mem stores a)
  multiple : unit ∣ loaded.edi.toNat
  behind : loaded.ebx.toNat ≤ loaded.edi.toNat
  smallest : loaded.edi.toNat < loaded.ebx.toNat + unit
  zeros : ∀ mem a, loaded.ebx.toNat ≤ a → a < loaded.edi.toNat → putAll mem stores a = 0
  below : ∀ x ∈ stores, x.1 < regs.ebp.toNat / unit * unit

/-- The addresses that are returned. -/
theorem pmLoadHigh_cases {iterations : Nat} {loaded : Loaded σ}
    (hdx : regs.dx.toNat = 2 ^ k - 1)
    (h : pmLoadHigh fs fuel iterations regs (Inode.fresh size pvt) 0 garbage = some loaded) :
    ∃ flag, runLoop (loadStep fs fuel regs.limit (regs.bx ≠ 0)) iterations
        (loadInit regs (Inode.fresh size pvt) 0 garbage) = some (flag, loaded.state) ∧
      loaded.ebx.toNat = loaded.state.buf % 2 ^ 32 ∧
      loaded.edi = loaded.ebx + (loaded.ebx &&& regs.dx.toUInt32) ∧
      (loaded.ebx &&& regs.dx.toUInt32).toNat = loaded.ebx.toNat % 2 ^ k ∧
      padStores regs loaded =
        storesFrom loaded.state.buf (List.replicate (loaded.ebx.toNat % 2 ^ k) 0) := by
  rw [pmLoadHigh] at h
  obtain ⟨⟨flag, t⟩, hrun, rfl⟩ := Option.map_eq_some_iff.mp h
  have hmask : (UInt32.ofNat t.buf &&& regs.dx.toUInt32).toNat =
      (UInt32.ofNat t.buf).toNat % 2 ^ k := by
    refine toNat_and_mask ?_
    rw [UInt16.toNat_toUInt32]
    exact hdx
  refine ⟨flag, hrun, UInt32.toNat_ofNat', rfl, hmask, ?_⟩
  rw [padStores, hmask]

/-- What ends below a multiple and not at one has the rest of its unit below it too. -/
theorem next_multiple_le {x y unit : Nat} (hunit : 0 < unit) (hdvd : unit ∣ y) (hle : x ≤ y)
    (hne : x % unit ≠ 0) : x + (unit - x % unit) ≤ y := by
  have hsplit := Nat.div_add_mod x unit
  have hlt := Nat.mod_lt x hunit
  have hnext : x + (unit - x % unit) = unit * (x / unit + 1) := by
    rw [Nat.mul_succ]
    omega
  refine Nat.le_of_lt_add_of_dvd (by omega) ?_ hdvd
  rw [hnext]
  exact Nat.dvd_mul_right _ _

/-- Where a load ends that does not wrap, and what its padding is. -/
theorem pmLoadHigh_spec {iterations : Nat} {loaded : Loaded σ} (himpl : Implements fs map size ok)
    (hshift : fs.sectorShift ≤ 20) (hok : ok pvt) (hfuel : 2 ^ 33 ≤ fuel)
    (hdx : regs.dx.toNat = 2 ^ k - 1) (hedi : 2 ^ k ∣ regs.edi.toNat)
    (hwrap : regs.Wraps fs → min regs.eax.toNat (deliverable fs size) = 0)
    (h : pmLoadHigh fs fuel iterations regs (Inode.fresh size pvt) 0 garbage = some loaded) :
    loaded.ebx.toNat = regs.edi.toNat + regs.toLoad fs size ∧
      loaded.edi.toNat = loaded.ebx.toNat + loaded.ebx.toNat % 2 ^ k ∧
      padStores regs loaded =
        storesAt loaded.ebx.toNat (List.replicate (loaded.ebx.toNat % 2 ^ k) 0) ∧
      loaded.ebx.toNat % 2 ^ k = regs.toLoad fs size % 2 ^ k ∧
      (loaded.ebx.toNat % 2 ^ k ≠ 0 →
        loaded.ebx.toNat + (2 ^ k - loaded.ebx.toNat % 2 ^ k) ≤ regs.limit) := by
  obtain ⟨flag, hrun, hebx, hpad, hmask, hstores⟩ := pmLoadHigh_cases hdx h
  obtain ⟨hbuf, -, -⟩ := loop_loads himpl hshift hok hfuel hwrap rfl hrun
  have hunit := Nat.two_pow_pos k
  have hdvd : 2 ^ k ∣ regs.limit := by
    rw [LoadRegs.limit, toNat_and_not_mask (by rw [UInt16.toNat_toUInt32]; exact hdx)]
    exact Nat.dvd_mul_left _ _
  have hroom := @sectorRoom_le _ fs regs.limit regs.edi.toNat
  have hload : regs.toLoad fs size ≤ regs.limit - regs.edi.toNat :=
    (Nat.min_le_right _ _).trans hroom
  have hlimitLt : regs.limit < 2 ^ 32 := UInt32.toNat_lt _
  have hediLt := regs.edi.toNat_lt
  have hbufLt : loaded.state.buf < 2 ^ 32 := by omega
  rw [Nat.mod_eq_of_lt hbufLt] at hebx
  have hmod : loaded.ebx.toNat % 2 ^ k = regs.toLoad fs size % 2 ^ k := by
    obtain ⟨q, hq⟩ := hedi
    rw [hebx, hbuf, hq, Nat.mul_add_mod]
  -- a file that does not end at a multiple ends in front of the limit, which is one
  have hnext : loaded.ebx.toNat % 2 ^ k ≠ 0 →
      loaded.ebx.toNat + (2 ^ k - loaded.ebx.toNat % 2 ^ k) ≤ regs.limit := by
    intro hne
    have hpos : regs.toLoad fs size ≠ 0 := by
      intro hzero
      rw [hmod, hzero, Nat.zero_mod] at hne
      exact hne rfl
    exact next_multiple_le hunit hdvd (by omega) hne
  have hsum : loaded.ebx.toNat + loaded.ebx.toNat % 2 ^ k < 2 ^ 32 := by
    by_cases hzero : loaded.ebx.toNat % 2 ^ k = 0
    · omega
    · have hle := hnext hzero
      have hword : 2 ^ k ∣ 2 ^ 32 := by
        refine Nat.pow_dvd_pow 2 ?_
        by_contra hk
        have hbig := Nat.pow_le_pow_right (show 0 < 2 by decide) (Nat.le_of_not_le hk)
        have hdxLt := regs.dx.toNat_lt
        omega
      have hroomTop : regs.limit + 2 ^ k ≤ 2 ^ 32 :=
        Nat.le_of_lt_add_of_dvd (by omega) (Nat.dvd_add hdvd (Nat.dvd_refl _)) hword
      have hmodLt := Nat.mod_lt loaded.ebx.toNat hunit
      omega
  refine ⟨hebx.trans hbuf, ?_, ?_, hmod, hnext⟩
  · rw [hpad, UInt32.toNat_add, hmask, Nat.mod_eq_of_lt hsum]
  · rw [hstores, ← hebx, storesFrom_eq]
    rw [List.length_replicate]
    exact hsum.le

/-- What the padding stores. -/
theorem putAll_zeros {mem : Nat → UInt8} {a start len : Nat} (hle : start ≤ a)
    (hlt : a < start + len) : putAll mem (storesAt start (List.replicate len 0)) a = 0 := by
  obtain ⟨i, rfl⟩ := Nat.exists_eq_add_of_le hle
  refine putAll_storesAt_front (List.prefix_refl _) ?_
  rw [List.getElem?_replicate]
  exact if_pos (Nat.lt_of_add_lt_add_left hlt)

/-- A load that wraps stores above the limit. -/
theorem LoadedWell.no_wrap {iterations : Nat} {loaded : Loaded σ} (himpl : Implements fs map size ok)
    (hok : ok pvt) (hfuel : 2 ^ 33 ≤ fuel) (hdx : regs.dx.toNat = 2 ^ k - 1)
    (h : pmLoadHigh fs fuel iterations regs (Inode.fresh size pvt) 0 garbage = some loaded)
    (hwell : LoadedWell (contents fs map size.toNat) regs (2 ^ k) loaded
      (pmLoadHighStores fs fuel iterations regs (Inode.fresh size pvt) 0 garbage loaded))
    (hwrap : regs.Wraps fs) : min regs.eax.toNat (deliverable fs size) = 0 := by
  by_contra hload
  obtain ⟨flag, hrun, -⟩ := pmLoadHigh_cases hdx h
  obtain ⟨b, hb⟩ := loop_wraps himpl hok hfuel hwrap hload hrun
  have hbelow := hwell.below _ (List.mem_append_left _ hb)
  have hlimit : regs.limit = regs.ebp.toNat / 2 ^ k * 2 ^ k :=
    toNat_and_not_mask (by rw [UInt16.toNat_toUInt32]; exact hdx)
  rw [← hlimit] at hbelow
  exact absurd hwrap.1 (Nat.lt_asymm hbelow)

/-- When it returns, `pm_load_high` has loaded the front of the file and padded it with zeros up to
the next multiple of the padding unit, all of it below the limit, if and only if the test for room
does not wrap, or there is nothing to load, and the bytes that are loaded leave nothing or half of
the unit. -/
theorem pm_load_high_padding_iff (fs : FsInfo σ) (map : SectorMap) (size : UInt32) (ok : σ → Prop)
    (himpl : Implements fs map size ok) (hshift : fs.sectorShift ≤ 20) (pvt : σ) (hok : ok pvt)
    (regs : LoadRegs) (k : Nat) (hdx : regs.dx.toNat = 2 ^ k - 1) (hedi : 2 ^ k ∣ regs.edi.toNat)
    (garbage : Bool) (fuel iterations : Nat) (hfuel : 2 ^ 33 ≤ fuel) (loaded : Loaded σ)
    (h : pmLoadHigh fs fuel iterations regs (Inode.fresh size pvt) 0 garbage = some loaded) :
    LoadedWell (contents fs map size.toNat) regs (2 ^ k) loaded
        (pmLoadHighStores fs fuel iterations regs (Inode.fresh size pvt) 0 garbage loaded) ↔
      (regs.Wraps fs → min regs.eax.toNat (deliverable fs size) = 0) ∧
        (regs.toLoad fs size % 2 ^ k = 0 ∨ 2 * (regs.toLoad fs size % 2 ^ k) = 2 ^ k) := by
  have hunit := Nat.two_pow_pos k
  constructor
  · intro hwell
    have hwrap := hwell.no_wrap himpl hok hfuel hdx h
    refine ⟨hwrap, ?_⟩
    obtain ⟨-, hediEq, -, hmod, -⟩ := pmLoadHigh_spec himpl hshift hok hfuel hdx hedi hwrap h
    have hmultiple := hwell.multiple
    rw [hediEq, dvd_two_mul_mod_iff hunit, hmod] at hmultiple
    exact hmultiple
  · rintro ⟨hwrap, hrest⟩
    obtain ⟨flag, hrun, -⟩ := pmLoadHigh_cases hdx h
    obtain ⟨-, hbelow, hmem⟩ := loop_loads himpl hshift hok hfuel hwrap rfl hrun
    obtain ⟨hebx, hediEq, hpad, hmod, hnext⟩ :=
      pmLoadHigh_spec himpl hshift hok hfuel hdx hedi hwrap h
    have hlimit : regs.limit = regs.ebp.toNat / 2 ^ k * 2 ^ k :=
      toNat_and_not_mask (by rw [UInt16.toNat_toUInt32]; exact hdx)
    have hlt := Nat.mod_lt loaded.ebx.toNat hunit
    have hstores : pmLoadHighStores fs fuel iterations regs (Inode.fresh size pvt) 0 garbage
        loaded = loopStores fs fuel regs.limit (regs.bx ≠ 0) iterations
          (loadInit regs (Inode.fresh size pvt) 0 garbage) ++
        storesAt loaded.ebx.toNat (List.replicate (loaded.ebx.toNat % 2 ^ k) 0) := by
      rw [pmLoadHighStores, hpad]
    rw [← hmod] at hrest
    rw [hstores]
    refine ⟨fun mem a hle hlta => ?_, ?_, ?_, ?_, fun mem a hle hlta => ?_, fun x hx => ?_⟩
    · -- the padding lies behind the file
      obtain ⟨i, rfl⟩ := Nat.exists_eq_add_of_le hle
      have hi : i < regs.toLoad fs size := by omega
      have hinFile : i < (contents fs map size.toNat).length := by
        rw [length_contents]
        have hload : regs.toLoad fs size ≤ deliverable fs size :=
          (Nat.min_le_left _ _).trans (Nat.min_le_right _ _)
        exact Nat.lt_of_lt_of_le hi (hload.trans deliverable_le)
      rw [Nat.add_sub_cancel_left, putAll_append, putAll_of_ne fun x hx => ?_,
        hmem mem i _ hi (List.getElem?_eq_getElem hinFile)]
      · exact List.getElem?_eq_getElem hinFile
      · have hrange := mem_storesAt hx
        omega
    · rw [hediEq]
      exact (dvd_two_mul_mod_iff hunit).mpr hrest
    · rw [hediEq]
      exact Nat.le_add_right _ _
    · rw [hediEq]
      exact Nat.add_lt_add_left hlt _
    · rw [hediEq] at hlta
      rw [putAll_append]
      exact putAll_zeros hle hlta
    · rw [← hlimit]
      obtain hx | hx := List.mem_append.mp hx
      · exact hbelow x hx
      · have hrange := mem_storesAt hx
        rw [List.length_replicate] at hrange
        obtain hzero | hhalf := hrest
        · omega
        · have hroom := hnext (by omega)
          omega

/-- Registers for a load at 1 MiB, padded to a multiple of four. -/
def paddingRegs : LoadRegs := ⟨0xFFFFFFFF, 0, 3, 0x100000, 0x1000000⟩

/-- Ten bytes leave half of the unit. -/
theorem pm_load_high_padding_iff_hole : ∃ loaded,
    pmLoadHigh holeFs (2 ^ 33) 2 paddingRegs (Inode.fresh 10 ()) 0 true = some loaded ∧
      LoadedWell (contents holeFs (fun _ => none) (10 : UInt32).toNat) paddingRegs (2 ^ 2) loaded
        (pmLoadHighStores holeFs (2 ^ 33) 2 paddingRegs (Inode.fresh 10 ()) 0 true loaded) := by
  obtain ⟨loaded, h⟩ := Option.isSome_iff_exists.mp
    (by decide +kernel :
      (pmLoadHigh holeFs (2 ^ 33) 2 paddingRegs (Inode.fresh 10 ()) 0 true).isSome)
  refine ⟨loaded, h, (pm_load_high_padding_iff holeFs (fun _ => none) 10 (fun _ => True)
    (holeFs_implements 10) (by decide) () trivial paddingRegs 2 (by decide) (by decide) true _ _
    le_rfl loaded h).mpr ⟨fun hwrap => ?_, by decide⟩⟩
  exact absurd hwrap.1 (by decide)

/-- Behind a file of one byte, one byte of padding is stored and not three. -/
theorem pm_load_high_pads_wrong : ¬∀ (fs : FsInfo Unit) (map : SectorMap) (size : UInt32)
    (regs : LoadRegs) (k : Nat) (garbage : Bool) (iterations : Nat) (loaded : Loaded Unit),
      Implements fs map size (fun _ => True) → regs.dx.toNat = 2 ^ k - 1 →
      2 ^ k ∣ regs.edi.toNat →
      pmLoadHigh fs (2 ^ 33) iterations regs (Inode.fresh size ()) 0 garbage = some loaded →
        LoadedWell (contents fs map size.toNat) regs (2 ^ k) loaded
          (pmLoadHighStores fs (2 ^ 33) iterations regs (Inode.fresh size ()) 0 garbage
            loaded) := by
  intro h
  have hedi : (pmLoadHigh holeFs (2 ^ 33) 2 paddingRegs (Inode.fresh 1 ()) 0 true).map
      Loaded.edi = some 0x100002 := by decide +kernel
  obtain ⟨loaded, hload, hloaded⟩ := Option.map_eq_some_iff.mp hedi
  have hwell := h holeFs (fun _ => none) 1 paddingRegs 2 true 2 loaded (holeFs_implements 1)
    (by decide) (by decide) hload
  have hmultiple := hwell.multiple
  rw [hloaded] at hmultiple
  exact absurd hmultiple (by decide)

end Liigboot.Fs
