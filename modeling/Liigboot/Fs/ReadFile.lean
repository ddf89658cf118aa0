import Liigboot.Fs.GetFsSec
import Mathlib.Algebra.Order.BigOperators.Group.List
import Mathlib.Algebra.Order.Group.Nat

/-!
# A sequence of reads returns the mapped file

Both cached extents agree with the map after every step, whichever of them was
refetched, joined or cut. So one read returns the next sectors of the file and a
sequence of reads returns its contents in order, as long as the size rounded up to
whole sectors does not wrap.
-/

namespace Liigboot.Fs

variable {σ : Type} {fs : FsInfo σ} {map : SectorMap} {size : UInt32} {ok : σ → Prop}

/-- What holds of an inode between two steps of a read. -/
structure Cached (map : SectorMap) (size : UInt32) (ok : σ → Prop) (inode : Inode σ) : Prop where
  size_eq : inode.size = size
  pvt_ok : ok inode.pvt
  this_maps : inode.thisExtent.Maps map
  next_maps : inode.nextExtent.Maps map

/-- An inode just opened has no extent cached. -/
theorem Cached.fresh (map : SectorMap) (size : UInt32) {pvt : σ} (h : ok pvt) :
    Cached map size ok (Inode.fresh size pvt) :=
  ⟨rfl, h, Extent.Maps.empty (Nat.two_pow_pos 32) rfl, Extent.Maps.empty (Nat.two_pow_pos 32) rfl⟩

/-- Any extent that agrees with the map may take the place of `this_extent`. -/
theorem Cached.setThis {inode : Inode σ} (h : Cached map size ok inode) {e : Extent}
    (he : e.Maps map) : Cached map size ok { inode with thisExtent := e } :=
  ⟨h.size_eq, h.pvt_ok, he, h.next_maps⟩

/-- A driver that is asked for some sectors only, and maps those in front of a limit: asked for
such a sector, it returns a run of at least one sector that agrees with the map and ends at such a
sector again. -/
structure ImplementsFrom (fs : FsInfo σ) (map : SectorMap) (size : UInt32) (ok : σ → Prop)
    (start : Nat → Prop) (limit : Nat) : Prop where
  mapped : ∀ (inode : Inode σ) (lstart : Nat), inode.size = size → ok inode.pvt →
    inode.nextExtent.Maps map → start lstart → lstart < limit →
    (fs.nextExtent inode lstart).error = false ∧ 0 < (fs.nextExtent inode lstart).len ∧
      ok (fs.nextExtent inode lstart).pvt ∧
      Extent.Maps map
        ⟨(fs.nextExtent inode lstart).pstart, lstart, (fs.nextExtent inode lstart).len⟩ ∧
      start (lstart + (fs.nextExtent inode lstart).len)

/-- A driver that maps all sectors may be asked for any of them. -/
theorem Implements.any (himpl : Implements fs map size ok) :
    ImplementsFrom fs map size ok (fun _ => True) (fs.sectorsOf size.toNat) := by
  refine ⟨fun inode lstart hsize hok hnext _ hlt => ?_⟩
  obtain ⟨herr, hpos, hok', hmaps⟩ := himpl.mapped inode lstart hsize hok hnext hlt
  exact ⟨herr, hpos, hok', hmaps, trivial⟩

variable {start : Nat → Prop} {limit : Nat}

/-- What holds of an inode between two steps of a read, when the driver is asked for some sectors
only: the extents end at such sectors. -/
structure CachedFrom (map : SectorMap) (size : UInt32) (ok : σ → Prop) (start : Nat → Prop)
    (inode : Inode σ) : Prop extends Cached map size ok inode where
  this_end : start (inode.thisExtent.lstart + inode.thisExtent.len)
  next_end : 0 < inode.nextExtent.len → start (inode.nextExtent.lstart + inode.nextExtent.len)

/-- Extents that may end anywhere are cached as they are. -/
theorem Cached.any {inode : Inode σ} (h : Cached map size ok inode) :
    CachedFrom map size ok (fun _ => True) inode := ⟨h, trivial, fun _ => trivial⟩

/-- An inode just opened has no extent but the empty one at the first sector. -/
theorem CachedFrom.fresh (map : SectorMap) (size : UInt32) {pvt : σ} (h : ok pvt)
    (hstart : start 0) : CachedFrom map size ok start (Inode.fresh size pvt) :=
  ⟨Cached.fresh map size h, hstart, fun hpos => absurd hpos (lt_irrefl 0)⟩

/-- An extent of the map that ends at such a sector may be cached. -/
theorem CachedFrom.set {inode : Inode σ} (h : CachedFrom map size ok start inode) {e : Extent}
    (he : e.Maps map) (hend : start (e.lstart + e.len)) :
    CachedFrom map size ok start { inode with thisExtent := e } :=
  ⟨h.toCached.setThis he, hend, h.next_end⟩

/-- The lookahead extent, refetched if it does not follow the current one. -/
theorem CachedFrom.refill (himpl : ImplementsFrom fs map size ok start limit) {inode : Inode σ}
    (h : CachedFrom map size ok start inode)
    (hlt : inode.thisExtent.lstart + inode.thisExtent.len < limit)
    {inode' : Inode σ}
    (h' : inode' = if inode.nextExtent.len = 0 ∨ inode.nextExtent.lstart ≠
      u32 (inode.thisExtent.lstart + inode.thisExtent.len) then getNextExtent fs inode else inode) :
    CachedFrom map size ok start inode' ∧ inode'.thisExtent = inode.thisExtent ∧
      0 < inode'.nextExtent.len ∧
      inode'.nextExtent.lstart = inode.thisExtent.lstart + inode.thisExtent.len := by
  rw [u32_of_lt h.this_maps.end_lt] at h'
  by_cases hc : inode.nextExtent.len = 0 ∨
      inode.nextExtent.lstart ≠ inode.thisExtent.lstart + inode.thisExtent.len
  · obtain ⟨herr, hpos, hok, hmaps, hend⟩ :=
      himpl.mapped inode _ h.size_eq h.pvt_ok h.next_maps h.this_end hlt
    rw [if_pos hc, getNextExtent, u32_of_lt h.this_maps.end_lt, herr] at h'
    subst h'
    exact ⟨⟨⟨h.size_eq, hok, h.this_maps, hmaps⟩, h.this_end, fun _ => hend⟩, rfl, hpos, rfl⟩
  · rw [if_neg hc] at h'
    subst h'
    simp only [not_or, Decidable.not_not] at hc
    exact ⟨h, rfl, Nat.pos_of_ne_zero hc.1, hc.2⟩

/-- Looking ahead ends with at least one sector at hand, from the same logical sector. -/
theorem lookahead_spec (himpl : ImplementsFrom fs map size ok start limit) (fuel : Nat)
    {inode : Inode σ} {n : Nat} (h : CachedFrom map size ok start inode) (hn : 0 < n)
    (hlt : inode.thisExtent.lstart + n ≤ limit)
    (hfuel : n - inode.thisExtent.len < fuel) :
    ∃ inode', lookahead fs fuel inode n = some (inode', n) ∧
      CachedFrom map size ok start inode' ∧
      inode'.thisExtent.lstart = inode.thisExtent.lstart ∧ 0 < inode'.thisExtent.len := by
  induction fuel generalizing inode with
  | zero => exact absurd hfuel (Nat.not_lt_zero _)
  | succ fuel ih =>
    rw [lookahead]
    by_cases hle : n ≤ inode.thisExtent.len
    · exact ⟨inode, if_pos hle, h, rfl, hn.trans_le hle⟩
    rw [if_neg hle]
    generalize hi : (if inode.nextExtent.len = 0 ∨ inode.nextExtent.lstart ≠
      u32 (inode.thisExtent.lstart + inode.thisExtent.len) then getNextExtent fs inode
      else inode) = inode₁
    obtain ⟨h₁, hthis, hpos, hnext⟩ := h.refill himpl (by omega) hi.symm
    have hend₁ := h₁.next_end hpos
    simp only [hthis]
    by_cases h0 : inode.thisExtent.len = 0
    · -- nothing at hand: the lookahead extent becomes the current one
      have hstart : inode₁.nextExtent.lstart = inode.thisExtent.lstart := by omega
      rw [if_pos h0, if_neg hpos.ne']
      obtain ⟨inode', hrun, hc, hl, hlen⟩ := ih (h₁.set h₁.next_maps hend₁)
        (by simp only [hstart]; exact hlt) (by simp only; omega)
      exact ⟨inode', hrun, hc, hl.trans hstart, hlen⟩
    rw [if_neg h0]
    by_cases hadj : inode₁.nextExtent.len ≠ 0 ∧
        inode₁.nextExtent.pstart = nextPstart inode.thisExtent
    · -- physically adjacent: the two extents are joined
      have hjoin := h.this_maps.coalesce h₁.next_maps (Nat.pos_of_ne_zero h0) hpos hnext hadj.2
      have hend := hjoin.end_lt
      have hlen : u32 (inode.thisExtent.len + inode₁.nextExtent.len) =
          inode.thisExtent.len + inode₁.nextExtent.len := u32_of_lt (by simp only at hend; omega)
      rw [hnext, Nat.add_assoc] at hend₁
      rw [if_pos hadj, hlen]
      exact ih (h₁.set hjoin hend₁) hlt (by simp only; omega)
    · rw [if_neg hadj]
      exact ⟨inode₁, rfl, h₁, by rw [hthis], by rw [hthis]; exact Nat.pos_of_ne_zero h0⟩

/-- The loop reads the next `n` sectors of the file. -/
theorem readLoop_spec (himpl : ImplementsFrom fs map size ok start limit) (fuel : Nat)
    {inode : Inode σ} {n bytesRead : Nat} {buf : List UInt8}
    (h : CachedFrom map size ok start inode)
    (hlt : inode.thisExtent.lstart + n ≤ limit)
    (hbytes : bytesRead + n * fs.sectorSize < 2 ^ 32) (hfuel : n + 2 ≤ fuel) :
    ∃ inode', readLoop fs fuel inode n bytesRead buf =
        some (inode', bytesRead + n * fs.sectorSize,
          buf ++ sectors fs map inode.thisExtent.lstart n) ∧
      CachedFrom map size ok start inode' ∧
      inode'.thisExtent.lstart = inode.thisExtent.lstart + n := by
  induction fuel generalizing inode n bytesRead buf with
  | zero => exact absurd hfuel (Nat.not_succ_le_zero _)
  | succ fuel ih =>
    rw [readLoop]
    by_cases h0 : n = 0
    · subst h0
      refine ⟨inode, ?_, h, rfl⟩
      rw [if_pos rfl, Nat.zero_mul, Nat.add_zero]
      simp only [sectors, List.range_zero, List.flatMap_nil, List.append_nil]
    obtain ⟨inode₁, hlook, h₁, hl, hpos⟩ :=
      lookahead_spec himpl fuel h (Nat.pos_of_ne_zero h0) hlt (by omega)
    rw [if_neg h0, hlook]
    simp only
    generalize hchunk : min n inode₁.thisExtent.len = chunk
    have hle : chunk ≤ inode₁.thisExtent.len := hchunk ▸ Nat.min_le_right _ _
    have hcn : chunk ≤ n := hchunk ▸ Nat.min_le_left _ _
    have hcpos : 0 < chunk := by omega
    have hsplit : n = chunk + (n - chunk) := by omega
    have hmul : n * fs.sectorSize = chunk * fs.sectorSize + (n - chunk) * fs.sectorSize := by
      rw [← Nat.add_mul, ← hsplit]
    have hend := h₁.this_maps.end_lt
    have hpstart : (if inode₁.thisExtent.pstart = extentZero then inode₁.thisExtent.pstart
        else u64 (inode₁.thisExtent.pstart + chunk)) =
        nextPsector inode₁.thisExtent.pstart chunk := by
      rw [nextPsector_eq (h₁.this_maps.ordinary hpos) hpos hle]
      by_cases hz : inode₁.thisExtent.pstart = extentZero
      · rw [if_pos hz, if_pos hz, hz]
      · have hord := (h₁.this_maps.ordinary hpos).resolve_left hz
        rw [if_neg hz, if_neg hz, u64_of_lt]
        simp only [extentVoid] at hord
        omega
    rw [hpstart, u32_of_lt (by omega : inode₁.thisExtent.lstart + chunk < 2 ^ 32),
      u32_of_lt (by omega : chunk * fs.sectorSize < 2 ^ 32),
      u32_of_lt (by omega : bytesRead + chunk * fs.sectorSize < 2 ^ 32),
      readChunk_eq h₁.this_maps hle (by omega), hl]
    have hrest : inode₁.thisExtent.lstart + chunk + (n - chunk) ≤ limit := by
      omega
    have hend₁ : start (inode₁.thisExtent.lstart + chunk + (inode₁.thisExtent.len - chunk)) := by
      have hsum : inode₁.thisExtent.lstart + chunk + (inode₁.thisExtent.len - chunk) =
          inode₁.thisExtent.lstart + inode₁.thisExtent.len := by omega
      rw [hsum]
      exact h₁.this_end
    obtain ⟨inode', hrun, h', hl'⟩ := @ih _ (n - chunk) (bytesRead + chunk * fs.sectorSize)
      (buf ++ sectors fs map inode.thisExtent.lstart chunk)
      (h₁.set (h₁.this_maps.advance hle) hend₁) hrest (by omega) (by omega)
    refine ⟨inode', ?_, h', by simp only at hl'; omega⟩
    simp only [hl] at hrun
    rw [hrun, List.append_assoc, ← sectors_append, ← hsplit, hmul, Nat.add_assoc]

/-! ## One read -/

@[simp] theorem length_contents (fs : FsInfo σ) (map : SectorMap) (size : Nat) :
    (contents fs map size).length = size := by
  have hpos := fs.sectorSize_pos
  have hcover : size ≤ fs.sectorsOf size * fs.sectorSize := by
    have : size + fs.sectorSize - 1 < _ := Nat.lt_div_mul_add hpos
    rw [FsInfo.sectorsOf]
    omega
  rw [contents, List.length_take, length_sectors, Nat.min_eq_left hcover]

/-- `this_extent` is made to start at a given sector: at any one for which the driver may be asked,
and at the one at which it starts already. -/
theorem CachedFrom.seekExtent {inode : Inode σ} (h : CachedFrom map size ok start inode)
    {lsector : Nat} (hl : lsector < 2 ^ 32)
    (hseek : lsector = inode.thisExtent.lstart ∨ start lsector) :
    CachedFrom map size ok start (seekExtent inode lsector) ∧
      (Fs.seekExtent inode lsector).thisExtent.lstart = lsector := by
  have hin : ∀ {e : Extent}, e.Maps map → (¬e.unusable lsector = true ↔
      e.lstart ≤ lsector ∧ lsector < e.lstart + e.len) := by
    intro e he
    simp only [Extent.unusable, Bool.or_eq_true, decide_eq_true_eq, not_or, not_lt, ge_iff_le,
      not_le, u32_of_lt he.end_lt]
  -- An extent at hand is cut in front of the sector, and ends where it ended.
  have hcut : ∀ {e : Extent}, e.Maps map → (0 < e.len → start (e.lstart + e.len)) →
      ¬e.unusable lsector = true →
      CachedFrom map size ok start { inode with thisExtent :=
        ⟨nextPsector e.pstart (lsector - e.lstart), lsector, e.len - (lsector - e.lstart)⟩ } := by
    intro e he hend hu
    obtain ⟨hlo, hhi⟩ := (hin he).mp hu
    have hadv := he.advance (show lsector - e.lstart ≤ e.len by omega)
    rw [Nat.add_sub_cancel' hlo] at hadv
    have hsum : lsector + (e.len - (lsector - e.lstart)) = e.lstart + e.len := by omega
    refine h.set hadv ?_
    dsimp only
    rw [hsum]
    exact hend (by omega)
  rw [Fs.seekExtent]
  by_cases hthis : inode.thisExtent.unusable lsector = true
  · have hasked : start lsector := by
      rcases hseek with rfl | hstart
      · have hlen : inode.thisExtent.len = 0 := by
          by_contra hne
          exact (hin h.this_maps).mpr ⟨le_rfl, by omega⟩ hthis
        have hend := h.this_end
        rw [hlen, Nat.add_zero] at hend
        exact hend
      · exact hstart
    rw [if_pos hthis]
    dsimp only
    by_cases hnext : inode.nextExtent.unusable lsector = true
    · rw [if_pos hnext]
      exact ⟨h.set (Extent.Maps.empty hl rfl) hasked, rfl⟩
    · rw [if_neg hnext]
      exact ⟨hcut h.next_maps h.next_end hnext, rfl⟩
  · rw [if_neg hthis]
    dsimp only
    rw [if_neg hthis]
    exact ⟨hcut h.this_maps (fun _ => h.this_end) hthis, rfl⟩

/-- Where a file stands between two reads: on a sector boundary or at its end. -/
def AtBoundary (fs : FsInfo σ) (size : UInt32) (offset : Nat) : Prop :=
  offset ≤ size.toNat ∧ (fs.sectorSize ∣ offset ∨ offset = size.toNat)

/-- Reading whole sectors ends at a boundary again. -/
theorem AtBoundary.next {offset : Nat} (h : AtBoundary fs size offset) (n : Nat) :
    AtBoundary fs size (min size.toNat (offset + n * fs.sectorSize)) := by
  refine ⟨Nat.min_le_left _ _, ?_⟩
  rcases Nat.le_total size.toNat (offset + n * fs.sectorSize) with hle | hle
  · exact Or.inr (Nat.min_eq_left hle)
  · rw [Nat.min_eq_right hle]
    refine h.2.imp (fun hd => Nat.dvd_add hd (Nat.dvd_mul_left _ _)) fun he => ?_
    omega

/-- The next sector of a file is one for which the driver may be asked, or the one at which the
extent at hand starts. -/
def SeekOk (fs : FsInfo σ) (size : UInt32) (start : Nat → Prop) (inode : Inode σ)
    (offset : Nat) : Prop :=
  offset < size.toNat →
    offset / fs.sectorSize = inode.thisExtent.lstart ∨ start (offset / fs.sectorSize)

/-- The bytes left in a file and their number rounded up, where the size in whole sectors does not
wrap. -/
theorem bytesLeft_eq {size : UInt32} {offset : Nat}
    (hsize : size.toNat + fs.sectorSize - 1 < 2 ^ 32) (hle : offset ≤ size.toNat) :
    u32 (size.toNat + 2 ^ 32 - offset) = size.toNat - offset ∧
      u32 (size.toNat - offset + fs.sectorSize - 1) = size.toNat - offset + fs.sectorSize - 1 := by
  have hs := size.toNat_lt
  refine ⟨?_, u32_of_lt (by omega)⟩
  rw [u32]
  omega

/-- The sectors left in a file cover its bytes left, and the last of them is not beyond the end. -/
theorem sectorsLeft_bounds (fs : FsInfo σ) {rest left : Nat}
    (hleft : (rest + fs.sectorSize - 1) / fs.sectorSize = left) :
    rest ≤ left * fs.sectorSize ∧ left * fs.sectorSize ≤ rest + fs.sectorSize - 1 := by
  have hlt : rest + fs.sectorSize - 1 < _ := Nat.lt_div_mul_add fs.sectorSize_pos
  have hle : _ ≤ rest + fs.sectorSize - 1 := Nat.div_mul_le_self _ fs.sectorSize
  rw [hleft] at hlt hle
  exact ⟨by omega, hle⟩

/-- Cutting a request at the end of the file does not change what it covers. -/
theorem min_request {rest n left sector : Nat} (hrest : rest ≤ left * sector) :
    min (n * sector) rest = min (min n left * sector) rest := by
  rcases Nat.le_total n left with hnl | hnl
  · rw [Nat.min_eq_left hnl]
  · have hmul := Nat.mul_le_mul_right sector hnl
    rw [Nat.min_eq_right hnl]
    omega

/-- From a sector boundary on, the sectors left are those of the file behind it. -/
theorem add_sectorsLeft {l size : Nat} (hl : fs.sectorSize * l ≤ size) :
    l + (size - fs.sectorSize * l + fs.sectorSize - 1) / fs.sectorSize = fs.sectorsOf size := by
  have hpos := fs.sectorSize_pos
  have hsub : size - fs.sectorSize * l + fs.sectorSize - 1 =
      size + fs.sectorSize - 1 - fs.sectorSize * l := by omega
  have hge : l ≤ (size + fs.sectorSize - 1) / fs.sectorSize :=
    (Nat.le_div_iff_mul_le hpos).mpr (by rw [Nat.mul_comm]; omega)
  rw [hsub, Nat.sub_mul_div, FsInfo.sectorsOf, Nat.add_sub_cancel' hge]

/-- A read returns the next sectors of the file, cut at its end, as long as it does not go beyond
the limit. -/
theorem genericGetfssec_from (himpl : ImplementsFrom fs map size ok start limit)
    (hsize : size.toNat + fs.sectorSize - 1 < 2 ^ 32) {inode : Inode σ} {offset n fuel : Nat}
    (h : CachedFrom map size ok start inode) (hoff : AtBoundary fs size offset)
    (hseekOk : SeekOk fs size start inode offset)
    (hlimit : offset / fs.sectorSize + n ≤ limit ∨ fs.sectorsOf size.toNat ≤ limit)
    (hfuel : n + 2 ≤ fuel) :
    ∃ g, genericGetfssec fs fuel inode offset n = some g ∧
      CachedFrom map size ok start g.inode ∧
      g.offset = min size.toNat (offset + n * fs.sectorSize) ∧
      g.data = ((contents fs map size.toNat).drop offset).take (n * fs.sectorSize) ∧
      (offset = size.toNat → g.haveMore = none) ∧
      (offset < size.toNat → 0 < n → g.haveMore = some (decide (g.offset < size.toNat))) ∧
      SeekOk fs size start g.inode g.offset := by
  obtain ⟨hle, hb⟩ := hoff
  have hpos := fs.sectorSize_pos
  have hs := size.toNat_lt
  obtain ⟨hleft, hround⟩ := bytesLeft_eq hsize hle
  rw [genericGetfssec, h.size_eq, hleft, hround]
  generalize hsl : (size.toNat - offset + fs.sectorSize - 1) / fs.sectorSize = left
  obtain ⟨hleft_ge, hleft_le⟩ := sectorsLeft_bounds fs hsl
  have hmin := @min_request _ n _ _ hleft_ge
  have hcut : ((contents fs map size.toNat).drop offset).take (n * fs.sectorSize) =
      ((contents fs map size.toNat).drop offset).take (min n left * fs.sectorSize) := by
    rw [List.take_eq_take_iff, List.length_drop, length_contents]
    exact hmin
  have hend : min size.toNat (offset + n * fs.sectorSize) =
      offset + min (min n left * fs.sectorSize) (size.toNat - offset) := by
    rw [← hmin]
    omega
  rw [hcut, hend]
  have hm : min n left ≤ left := Nat.min_le_right _ _
  have hmn : min n left ≤ n := Nat.min_le_left _ _
  have hmpos : 0 < n → 0 < left → 0 < min n left := fun hn hleft => Nat.lt_min.mpr ⟨hn, hleft⟩
  generalize min n left = m at *
  by_cases h0 : m = 0
  · subst h0
    refine ⟨_, if_pos rfl, h, ?_, ?_, fun _ => rfl, fun hlt hn => ?_, hseekOk⟩
    · simp only [Nat.zero_mul, Nat.zero_min, Nat.add_zero]
    · rw [Nat.zero_mul, List.take_zero]
    · have hzero : left = 0 := by
        by_contra hne
        exact absurd (hmpos hn (Nat.pos_of_ne_zero hne)) (lt_irrefl 0)
      rw [hzero, Nat.zero_mul] at hleft_ge
      omega
  rw [if_neg h0]
  have hlt : offset < size.toNat := by
    rcases Nat.lt_or_eq_of_le hle with hlt | rfl
    · exact hlt
    · rw [Nat.sub_self, Nat.zero_add, Nat.div_eq_of_lt (by omega)] at hsl
      omega
  obtain ⟨l, rfl⟩ : fs.sectorSize ∣ offset := hb.resolve_right hlt.ne
  have hl : fs.sectorSize * l / fs.sectorSize = l := Nat.mul_div_cancel_left l hpos
  have hll : l ≤ fs.sectorSize * l := Nat.le_mul_of_pos_left l hpos
  rw [SeekOk, hl] at hseekOk
  rw [hl] at hlimit
  obtain ⟨hseek, hstart⟩ := h.seekExtent (show l < 2 ^ 32 by omega) (hseekOk hlt)
  have hmul : m * fs.sectorSize ≤ left * fs.sectorSize := Nat.mul_le_mul_right _ hm
  have hsectors : l + left = fs.sectorsOf size.toNat := by
    rw [← hsl]
    exact add_sectorsLeft hle
  have hin : (seekExtent inode l).thisExtent.lstart + m ≤ limit := by
    rw [hstart]
    omega
  have hbytes : 0 + m * fs.sectorSize < 2 ^ 32 := by omega
  obtain ⟨inode', hrun, h', hnext⟩ := @readLoop_spec _ _ _ _ _ _ _ himpl fuel _ m 0 [] hseek hin
    hbytes (by omega)
  rw [hl, hrun]
  rw [hstart] at hnext
  refine ⟨_, rfl, h', ?_, ?_, fun heq => absurd heq hlt.ne, fun _ _ => ?_, fun hmore => ?_⟩
  · simp only [Nat.zero_add]
    exact u32_of_lt (by omega)
  · rw [Nat.mul_comm fs.sectorSize l, contents_window fs map size.toNat (by omega)]
    simp only [hstart, List.nil_append, Nat.zero_add]
    rw [List.take_eq_take_iff, length_sectors, Nat.min_assoc, Nat.min_comm (_ - _),
      ← Nat.min_assoc, Nat.min_self]
  · simp only [Nat.zero_add]
    rw [u32_of_lt (by omega)]
    exact congrArg some (decide_eq_decide.mpr (by omega))
  · simp only [Nat.zero_add] at hmore ⊢
    rw [u32_of_lt (by omega)] at hmore ⊢
    left
    have hfull : fs.sectorSize * l + min (m * fs.sectorSize) (size.toNat - fs.sectorSize * l) =
        fs.sectorSize * (l + m) := by
      rw [Nat.mul_add, Nat.mul_comm fs.sectorSize m]
      omega
    rw [hfull, Nat.mul_div_cancel_left _ hpos, hnext]

/-- Where extents may end anywhere every seek is good. -/
theorem seekOk_any {inode : Inode σ} {offset : Nat} : SeekOk fs size (fun _ => True) inode offset :=
  fun _ => Or.inr trivial

/-- A read of a driver that maps all sectors. -/
theorem genericGetfssec_spec (himpl : Implements fs map size ok)
    (hsize : size.toNat + fs.sectorSize - 1 < 2 ^ 32) {inode : Inode σ} {offset n fuel : Nat}
    (h : Cached map size ok inode) (hoff : AtBoundary fs size offset) (hfuel : n + 2 ≤ fuel) :
    ∃ g, genericGetfssec fs fuel inode offset n = some g ∧ Cached map size ok g.inode ∧
      g.offset = min size.toNat (offset + n * fs.sectorSize) ∧
      g.data = ((contents fs map size.toNat).drop offset).take (n * fs.sectorSize) ∧
      (offset = size.toNat → g.haveMore = none) ∧
      (offset < size.toNat → 0 < n → g.haveMore = some (decide (g.offset < size.toNat))) := by
  obtain ⟨g, hg, h', hoffset, hdata, hnone, hsome, -⟩ :=
    genericGetfssec_from himpl.any hsize h.any hoff seekOk_any (Or.inr le_rfl) hfuel
  exact ⟨g, hg, h'.toCached, hoffset, hdata, hnone, hsome⟩

/-- Where no extent at hand has the next sector and the driver fails for it, a read returns
nothing. -/
theorem genericGetfssec_fails {inode : Inode σ} {l fuel : Nat}
    (hsize : inode.size.toNat + fs.sectorSize - 1 < 2 ^ 32)
    (hl : l * fs.sectorSize < inode.size.toNat)
    (hend : inode.thisExtent.lstart + inode.thisExtent.len < 2 ^ 32 ∧
      inode.nextExtent.lstart + inode.nextExtent.len < 2 ^ 32)
    (hnone : ∀ e, e = inode.thisExtent ∨ e = inode.nextExtent →
      ¬(e.lstart ≤ l ∧ l < e.lstart + e.len))
    (hfail : ∀ this, (fs.nextExtent { inode with thisExtent := this } l).error = true)
    (hfuel : 3 ≤ fuel) :
    ∃ g, genericGetfssec fs fuel inode (l * fs.sectorSize) 1 = some g ∧ g.data = [] := by
  have hpos := fs.sectorSize_pos
  have hs := inode.size.toNat_lt
  have hll : l ≤ l * fs.sectorSize := Nat.le_mul_of_pos_right l hpos
  obtain ⟨hleft, hround⟩ := bytesLeft_eq hsize hl.le
  have hone : 1 ≤ (inode.size.toNat - l * fs.sectorSize + fs.sectorSize - 1) / fs.sectorSize :=
    (Nat.le_div_iff_mul_le hpos).mpr (by omega)
  have hunusable : ∀ {e : Extent}, e.lstart + e.len < 2 ^ 32 →
      ¬(e.lstart ≤ l ∧ l < e.lstart + e.len) → e.unusable l = true := by
    intro e he hn
    simp only [Extent.unusable, Bool.or_eq_true, decide_eq_true_eq, u32_of_lt he]
    omega
  have hthis := hunusable hend.1 (hnone _ (Or.inl rfl))
  have hnext := hunusable hend.2 (hnone _ (Or.inr rfl))
  have hlu : u32 (l + 0) = l := u32_of_lt (by omega)
  have hrefill : inode.nextExtent.len = 0 ∨ inode.nextExtent.lstart ≠ u32 (l + 0) := by
    rw [hlu]
    by_contra hnot
    obtain ⟨hlen, hlstart⟩ := not_or.mp hnot
    exact hnone _ (Or.inr rfl) ⟨by omega, by omega⟩
  obtain ⟨fuel, rfl⟩ := Nat.exists_eq_add_of_le' hfuel
  have hseek : seekExtent inode l =
      { inode with thisExtent := ⟨inode.nextExtent.pstart, l, 0⟩ } := by
    rw [seekExtent, if_pos hthis]
    dsimp only
    rw [if_pos hnext]
  have hlook : ∃ inode', lookahead fs (fuel + 2) (seekExtent inode l) 1 = some (inode', 0) := by
    rw [hseek, lookahead, if_neg (Nat.not_succ_le_zero 0)]
    dsimp only
    rw [if_pos hrefill, getNextExtent]
    dsimp only
    rw [hlu, hfail, if_pos rfl, if_pos rfl, if_pos rfl]
    exact ⟨_, rfl⟩
  obtain ⟨inode', hlook⟩ := hlook
  have hread : ∃ inode'' n, readLoop fs (fuel + 3) (seekExtent inode l) 1 0 [] =
      some (inode'', n, []) := by
    rw [readLoop, if_neg Nat.one_ne_zero, hlook]
    dsimp only
    rw [Nat.zero_min, readLoop, if_pos rfl, readChunk]
    refine ⟨_, _, congrArg (fun buf => some (_, _, [] ++ buf)) ?_⟩
    split_ifs
    · rw [Nat.zero_mul]
      rfl
    · rfl
  obtain ⟨inode'', n, hread⟩ := hread
  rw [genericGetfssec, hleft, hround, Nat.mul_div_cancel _ hpos, Nat.min_eq_left hone]
  dsimp only
  rw [if_neg Nat.one_ne_zero, hread]
  exact ⟨_, rfl, List.take_nil⟩

/-! ## A sequence of reads -/

/-- The reads of a sequence return what lies behind the offset, as far as they reach. -/
theorem readAll_spec (himpl : ImplementsFrom fs map size ok start (fs.sectorsOf size.toNat))
    (hsize : size.toNat + fs.sectorSize - 1 < 2 ^ 32) {fuel : Nat} (requests : List Nat)
    {inode : Inode σ} {offset : Nat} (h : CachedFrom map size ok start inode)
    (hoff : AtBoundary fs size offset) (hseekOk : SeekOk fs size start inode offset)
    (hfuel : ∀ n ∈ requests, n + 2 ≤ fuel) :
    readAll fs fuel requests inode offset =
      some (((contents fs map size.toNat).drop offset).take (requests.sum * fs.sectorSize)) := by
  induction requests generalizing inode offset with
  | nil => rw [readAll, List.sum_nil, Nat.zero_mul, List.take_zero]
  | cons n ns ih =>
    obtain ⟨g, hg, h', hgo, hgd, -, -, hseekOk'⟩ := genericGetfssec_from himpl hsize h hoff hseekOk
      (Or.inr le_rfl) (hfuel n List.mem_cons_self)
    have hoff' : AtBoundary fs size g.offset := hgo ▸ hoff.next n
    have hdrop : (contents fs map size.toNat).drop g.offset =
        ((contents fs map size.toNat).drop offset).drop (n * fs.sectorSize) := by
      rw [List.drop_drop, hgo]
      rcases Nat.le_total size.toNat (offset + n * fs.sectorSize) with hle | hle
      · rw [Nat.min_eq_left hle, List.drop_eq_nil_of_le (length_contents ..).le,
          List.drop_eq_nil_of_le ((length_contents ..).trans_le hle)]
      · rw [Nat.min_eq_right hle]
    rw [readAll, hg]
    simp only [ih h' hoff' hseekOk' fun m hm => hfuel m (List.mem_cons_of_mem _ hm), hgd, hdrop,
      Option.map_some, List.sum_cons, Nat.add_mul, List.take_add]

/-- A size that does not wrap is read in order, when the driver maps the file from its first sector
on. -/
theorem readsInOrder_from (himpl : ImplementsFrom fs map size ok start (fs.sectorsOf size.toNat))
    {pvt : σ} (hok : ok pvt) (hstart : start 0) (requests : List Nat)
    (hsize : size.toNat + fs.sectorSize - 1 < 2 ^ 32) :
    ReadsInOrder fs map size pvt requests := by
  refine ⟨requests.sum + 2, fun fuel hfuel => ?_⟩
  have hmem : ∀ n ∈ requests, n + 2 ≤ fuel := fun n hn =>
    (Nat.add_le_add_right (List.le_sum_of_mem hn) 2).trans hfuel
  refine readAll_spec himpl hsize requests (CachedFrom.fresh map size hok hstart)
    ⟨Nat.zero_le _, Or.inl (Nat.dvd_zero _)⟩ (fun _ => Or.inr ?_) hmem
  rw [Nat.zero_div]
  exact hstart

/-- A size that does not wrap is read in order. -/
theorem readsInOrder_of_le (himpl : Implements fs map size ok) {pvt : σ} (hok : ok pvt)
    (requests : List Nat) (hsize : size.toNat + fs.sectorSize - 1 < 2 ^ 32) :
    ReadsInOrder fs map size pvt requests :=
  readsInOrder_from himpl.any hok trivial requests hsize

/-- Reads up to the end of the file tell its contents. -/
theorem contents_eq_of_reads {map map' : SectorMap} {pvt : σ}
    (h : ReadsInOrder fs map size pvt [fs.sectorsOf size.toNat])
    (h' : ReadsInOrder fs map' size pvt [fs.sectorsOf size.toNat]) :
    contents fs map size.toNat = contents fs map' size.toNat := by
  obtain ⟨N, hN⟩ := h
  obtain ⟨N', hN'⟩ := h'
  have hread := hN (max N N') (Nat.le_max_left _ _)
  rw [hN' (max N N') (Nat.le_max_right _ _), List.sum_singleton] at hread
  have hall : ∀ map : SectorMap, (contents fs map size.toNat).take
      (fs.sectorsOf size.toNat * fs.sectorSize) = contents fs map size.toNat := by
    intro map
    rw [contents, List.take_take, Nat.min_comm, ← List.take_take, ← length_sectors fs map 0,
      List.take_length]
  rw [hall, hall] at hread
  exact (Option.some.inj hread).symm

/-- Two maps tell the same contents when they do for each sector, as far as the file goes. -/
theorem contents_eq_iff (fs : FsInfo σ) (map map' : SectorMap) (size : Nat) :
    contents fs map size = contents fs map' size ↔ ∀ l < fs.sectorsOf size,
      (sectorData fs map l).take (size - l * fs.sectorSize) =
        (sectorData fs map' l).take (size - l * fs.sectorSize) := by
  have hone : ∀ (map : SectorMap) (l : Nat), sectors fs map l 1 = sectorData fs map l := by
    intro map l
    rw [sectors_succ, Nat.add_zero]
    rfl
  constructor
  · intro h l hl
    rw [← hone, ← hone, ← contents_window fs map size (Nat.succ_le_of_lt hl),
      ← contents_window fs map' size (Nat.succ_le_of_lt hl), h]
  · intro h
    have hprefix : ∀ n ≤ fs.sectorsOf size,
        (sectors fs map 0 n).take size = (sectors fs map' 0 n).take size := by
      intro n hn
      induction n with
      | zero => rfl
      | succ n ih =>
        rw [sectors_succ, sectors_succ, List.take_append, List.take_append, length_sectors,
          length_sectors, ih (Nat.le_of_succ_le hn), Nat.zero_add, h n hn]
    exact hprefix _ le_rfl

/-- A size whose last sector wraps counts as no sector at all, and no byte is read. -/
theorem readAll_of_wraps (fs : FsInfo σ) (size : UInt32) (pvt : σ) (fuel : Nat)
    (requests : List Nat) (hsize : 2 ^ 32 ≤ size.toNat + fs.sectorSize - 1) :
    readAll fs fuel requests (Inode.fresh size pvt) 0 = some [] := by
  have hs := size.toNat_lt
  have hss := fs.sectorSize_lt
  have hleft : u32 (size.toNat + 2 ^ 32 - 0) = size.toNat := by
    rw [u32]
    omega
  have hzero : u32 (size.toNat + fs.sectorSize - 1) / fs.sectorSize = 0 := by
    refine Nat.div_eq_of_lt ?_
    rw [u32]
    omega
  induction requests with
  | nil => rfl
  | cons n ns ih =>
    simp only [readAll, genericGetfssec, Inode.fresh, hleft, hzero, Nat.min_zero, if_true] at ih ⊢
    rw [ih]
    rfl

/-- A file that ends in the last sector below 4 GiB is not read. -/
theorem not_readsInOrder_of_wraps (fs : FsInfo σ) (map : SectorMap) (size : UInt32) (pvt : σ)
    {requests : List Nat} (hreq : 0 < requests.sum)
    (hsize : 2 ^ 32 ≤ size.toNat + fs.sectorSize - 1) :
    ¬ ReadsInOrder fs map size pvt requests := by
  rintro ⟨N, hN⟩
  have hss := fs.sectorSize_lt
  have hlen := congrArg (Option.map List.length) (hN N le_rfl)
  rw [readAll_of_wraps fs size pvt N requests hsize] at hlen
  simp only [Option.map_some, List.length_nil, List.length_take, length_contents,
    Option.some.injEq] at hlen
  have hmul : 0 < requests.sum * fs.sectorSize := Nat.mul_pos hreq fs.sectorSize_pos
  omega

/-- For every driver that maps files by one map, every non-empty sequence of reads of positive
lengths on a fresh inode returns the mapped contents in order if and only if the file's size
rounded up to whole sectors does not wrap. -/
theorem readsInOrder_iff (fs : FsInfo σ) (map : SectorMap) (size : UInt32) (ok : σ → Prop)
    (pvt : σ) (himpl : Implements fs map size ok) (hok : ok pvt) (requests : List Nat)
    (hne : requests ≠ []) (hpos : ∀ n ∈ requests, 0 < n) :
    ReadsInOrder fs map size pvt requests ↔ size.toNat + fs.sectorSize - 1 < 2 ^ 32 := by
  constructor
  · intro h
    by_contra hsize
    obtain ⟨n, hn⟩ := List.exists_mem_of_ne_nil requests hne
    exact not_readsInOrder_of_wraps fs map size pvt
      ((hpos n hn).trans_le (List.le_sum_of_mem hn)) (Nat.le_of_not_lt hsize) h
  · exact readsInOrder_of_le himpl hok requests

/-- A filesystem whose files are all zeros, mapped one sector at a time. -/
def holeFs : FsInfo Unit where
  nextExtent _ _ := ⟨false, extentZero, 1, ()⟩
  sectorShift := 9
  disk _ := List.replicate 512 0
  shift_lt := usualShift_lt
  disk_length := zeroSectors_length

/-- The file system of holes implements the file of holes. -/
theorem holeFs_implements (size : UInt32) :
    Implements holeFs (fun _ => none) size fun _ => True := by
  refine ⟨fun inode lstart _ _ _ hlt => ⟨rfl, Nat.one_pos, trivial, ?_, fun _ => Or.inl rfl,
    fun j _ => (if_pos rfl).symm⟩⟩
  have hs := size.toNat_lt
  have hsectors : holeFs.sectorsOf size.toNat = (size.toNat + 511) / 512 := rfl
  simp only [holeFs]
  omega

/-- The reads of a file of two sectors. -/
theorem readsInOrder_iff_hole :
    ReadsInOrder holeFs (fun _ => none) 1024 () [1, 1] ↔
      (1024 : UInt32).toNat + holeFs.sectorSize - 1 < 2 ^ 32 :=
  readsInOrder_iff holeFs (fun _ => none) 1024 (fun _ => True) () (holeFs_implements 1024) trivial
    [1, 1] (by decide) (by decide)

/-- A file whose last sector ends at 4 GiB is mapped, but nothing of it is read. -/
theorem hole_not_readsInOrder :
    (Implements holeFs (fun _ => none) 0xffffffff fun _ => True) ∧
      ¬ ReadsInOrder holeFs (fun _ => none) 0xffffffff () [1] :=
  ⟨holeFs_implements 0xffffffff,
    not_readsInOrder_of_wraps holeFs (fun _ => none) 0xffffffff () (by decide) (by decide)⟩

end Liigboot.Fs
