import Liigboot.Fs.LoadHigh
import Mathlib.Algebra.Order.Group.Nat

/-!
# The loop of `pm_load_high` ends

A read returns, whatever extents the driver finds, as long as none of them wraps. It transfers
something unless nothing is left of the file, or no extent is found for its first sector; in both
cases `have_more` does not become false.
-/

namespace Liigboot.Fs

variable {σ : Type} {fs : FsInfo σ} {ok : σ → Prop}

/-! ## One read -/

/-- Fetching the next extent keeps the inode sane. -/
theorem Sane.refetch (hfs : NoWrap fs ok) {inode : Inode σ} (h : Sane ok inode) :
    Sane ok (refetch fs inode) ∧ (refetch fs inode).thisExtent = inode.thisExtent ∧
      ((refetch fs inode).nextExtent.len ≠ 0 →
        (refetch fs inode).nextExtent.lstart =
          inode.thisExtent.lstart + inode.thisExtent.len) := by
  have hend := u32_of_lt h.this_lt
  rw [Fs.refetch, hend]
  split_ifs with hc
  · obtain ⟨hok, hlen⟩ := hfs inode (inode.thisExtent.lstart + inode.thisExtent.len) h.pvt_ok
    rw [getNextExtent, hend]
    refine ⟨⟨hok, h.this_lt, ?_⟩, rfl, fun _ => rfl⟩
    dsimp only
    cases herr : (fs.nextExtent inode
      (inode.thisExtent.lstart + inode.thisExtent.len)).error with
    | true => exact h.this_lt
    | false => exact hlen herr
  · rw [not_or, not_not] at hc
    exact ⟨h, rfl, fun _ => hc.2⟩

/-- Looking ahead comes to an end, and leaves an extent to read from if there was one. -/
theorem lookahead_returns (hfs : NoWrap fs ok) (fuel : Nat) {inode : Inode σ} {n : Nat}
    (h : Sane ok inode) (hn : 0 < n) (hfuel : n - inode.thisExtent.len < fuel) :
    ∃ inode' n', lookahead fs fuel inode n = some (inode', n') ∧ Sane ok inode' ∧
      (HasExtent fs inode → n' = n ∧ 0 < inode'.thisExtent.len) ∧
      (¬HasExtent fs inode → n' = 0) := by
  induction fuel generalizing inode with
  | zero => exact absurd hfuel (Nat.not_lt_zero _)
  | succ fuel ih =>
    rw [lookahead]
    by_cases hle : n ≤ inode.thisExtent.len
    · have hlen : 0 < inode.thisExtent.len := hn.trans_le hle
      rw [if_pos hle]
      exact ⟨inode, n, rfl, h, fun _ => ⟨rfl, hlen⟩, fun hne => absurd (Or.inl hlen.ne') hne⟩
    rw [if_neg hle]
    obtain ⟨h₁, hthis, hstart⟩ := h.refetch hfs
    have hhas : HasExtent fs inode ↔
        inode.thisExtent.len ≠ 0 ∨ (Fs.refetch fs inode).nextExtent.len ≠ 0 := Iff.rfl
    rw [show (if inode.nextExtent.len = 0 ∨ inode.nextExtent.lstart ≠
      u32 (inode.thisExtent.lstart + inode.thisExtent.len) then getNextExtent fs inode
      else inode) = Fs.refetch fs inode from rfl]
    generalize Fs.refetch fs inode = inode₁ at h₁ hthis hstart hhas
    dsimp only
    rw [hthis, hhas]
    by_cases h0 : inode.thisExtent.len = 0
    · rw [if_pos h0]
      by_cases hnext : inode₁.nextExtent.len = 0
      · rw [if_pos hnext]
        refine ⟨_, _, rfl, ⟨h₁.pvt_ok, h₁.next_lt, h₁.next_lt⟩, fun hor => ?_, fun _ => rfl⟩
        exact absurd hor (not_or.mpr ⟨not_not.mpr h0, not_not.mpr hnext⟩)
      · rw [if_neg hnext]
        obtain ⟨inode', n', hrun, h', hsome, -⟩ := @ih
          { inode₁ with thisExtent := inode₁.nextExtent } ⟨h₁.pvt_ok, h₁.next_lt, h₁.next_lt⟩
          (by dsimp only; omega)
        exact ⟨inode', n', hrun, h', fun _ => hsome (Or.inl hnext),
          fun hne => absurd (Or.inr hnext) hne⟩
    · rw [if_neg h0]
      by_cases hjoin : inode₁.nextExtent.len ≠ 0 ∧
          inode₁.nextExtent.pstart = nextPstart inode.thisExtent
      · -- The joined extent ends where the one behind it does.
        have hnextLt := h₁.next_lt
        rw [hstart hjoin.1, Nat.add_assoc] at hnextLt
        have hlen : u32 (inode.thisExtent.len + inode₁.nextExtent.len) =
            inode.thisExtent.len + inode₁.nextExtent.len := u32_of_lt (by omega)
        have hpos := Nat.pos_of_ne_zero hjoin.1
        rw [if_pos hjoin, hlen]
        obtain ⟨inode', n', hrun, h', hsome, -⟩ := @ih
          { inode₁ with thisExtent := { inode.thisExtent with
            len := inode.thisExtent.len + inode₁.nextExtent.len } }
          ⟨h₁.pvt_ok, hnextLt, h₁.next_lt⟩ (by dsimp only; omega)
        refine ⟨inode', n', hrun, h', fun _ => hsome (Or.inl ?_), fun hne => ?_⟩
        · dsimp only
          omega
        · exact absurd (Or.inl h0) hne
      · rw [if_neg hjoin]
        refine ⟨inode₁, n, rfl, h₁, fun _ => ⟨rfl, ?_⟩, fun hne => absurd (Or.inl h0) hne⟩
        rw [hthis]
        exact Nat.pos_of_ne_zero h0

theorem length_readChunk {e : Extent} {chunk : Nat} (h : chunk * fs.sectorSize < 2 ^ 32) :
    (readChunk fs e chunk).length = chunk * fs.sectorSize := by
  rw [readChunk]
  split_ifs
  · rw [List.length_replicate, u32_of_lt h]
  · clear h
    induction chunk with
    | zero => rw [Nat.zero_mul]; rfl
    | succ n ih =>
      rw [List.range_succ, List.flatMap_append, List.length_append, ih, List.flatMap_cons,
        List.flatMap_nil, List.append_nil, fs.disk_length, Nat.succ_mul]
      rfl

/-- The loop of a read returns; it stores bytes if there is an extent for the first sector, and
only then. -/
theorem readLoop_returns (hfs : NoWrap fs ok) (fuel : Nat) {inode : Inode σ} {n bytesRead : Nat}
    {buf : List UInt8} (h : Sane ok inode) (hbytes : bytesRead + n * fs.sectorSize < 2 ^ 32)
    (hfuel : n + 2 ≤ fuel) :
    ∃ inode' bytesRead' buf', readLoop fs fuel inode n bytesRead buf =
        some (inode', bytesRead', buf') ∧ Sane ok inode' ∧ bytesRead ≤ bytesRead' ∧
      bytesRead' ≤ bytesRead + n * fs.sectorSize ∧
      bytesRead' + buf.length = bytesRead + buf'.length ∧
      (0 < n → HasExtent fs inode → bytesRead < bytesRead') ∧
      (¬HasExtent fs inode → bytesRead' = bytesRead) := by
  induction fuel generalizing inode n bytesRead buf with
  | zero => exact absurd hfuel (Nat.not_succ_le_zero _)
  | succ fuel ih =>
    rw [readLoop]
    by_cases h0 : n = 0
    · rw [if_pos h0]
      exact ⟨inode, bytesRead, buf, rfl, h, le_rfl, Nat.le_add_right _ _, rfl,
        fun hn => absurd h0 hn.ne', fun _ => rfl⟩
    have hn := Nat.pos_of_ne_zero h0
    have hss := fs.sectorSize_pos
    obtain ⟨inode₁, n₁, hlook, h₁, hsome, hnone⟩ := lookahead_returns hfs fuel h hn (by omega)
    rw [if_neg h0, hlook]
    dsimp only
    generalize hchunk : min n₁ inode₁.thisExtent.len = chunk
    have hle : chunk ≤ inode₁.thisExtent.len := hchunk ▸ Nat.min_le_right _ _
    have hle' : chunk ≤ n₁ := hchunk ▸ Nat.min_le_left _ _
    have hn₁ : n₁ ≤ n := by
      by_cases hhas : HasExtent fs inode
      · exact (hsome hhas).1.le
      · rw [hnone hhas]
        exact Nat.zero_le n
    have hmul : chunk * fs.sectorSize + (n₁ - chunk) * fs.sectorSize ≤ n * fs.sectorSize := by
      rw [← Nat.add_mul]
      exact Nat.mul_le_mul_right _ (by omega)
    have hchunkPos : HasExtent fs inode → 0 < chunk * fs.sectorSize := by
      intro hhas
      obtain ⟨hn', hlen⟩ := hsome hhas
      exact Nat.mul_pos (by omega) hss
    have hthis := h₁.this_lt
    rw [u32_of_lt (by omega : inode₁.thisExtent.lstart + chunk < 2 ^ 32),
      u32_of_lt (by omega : chunk * fs.sectorSize < 2 ^ 32),
      u32_of_lt (by omega : bytesRead + chunk * fs.sectorSize < 2 ^ 32)]
    have hfuel' : n₁ - chunk + 2 ≤ fuel := by
      by_cases hhas : HasExtent fs inode
      · have hpos := Nat.pos_of_mul_pos_right (hchunkPos hhas)
        omega
      · rw [hnone hhas]
        omega
    obtain ⟨inode', bytesRead', buf', hrun, h', hge, hupper, hlength, -, -⟩ := @ih
      { inode₁ with thisExtent := ⟨if inode₁.thisExtent.pstart = extentZero then
        inode₁.thisExtent.pstart else u64 (inode₁.thisExtent.pstart + chunk),
        inode₁.thisExtent.lstart + chunk, inode₁.thisExtent.len - chunk⟩ } (n₁ - chunk)
      (bytesRead + chunk * fs.sectorSize) (buf ++ readChunk fs inode₁.thisExtent chunk)
      ⟨h₁.pvt_ok, by dsimp only; omega, h₁.next_lt⟩ (by omega) hfuel'
    rw [List.length_append, length_readChunk (by omega)] at hlength
    refine ⟨inode', bytesRead', buf', hrun, h', by omega, by omega, by omega, fun _ hhas => ?_,
      fun hhas => ?_⟩
    · have hpos := hchunkPos hhas
      omega
    · rw [hnone hhas] at hchunk hupper
      have hzero : chunk = 0 := by omega
      rw [hzero, Nat.zero_mul] at hge hupper
      omega

/-- Going to a sector keeps the inode sane. -/
theorem Sane.seek {inode : Inode σ} (h : Sane ok inode) {lsector : Nat} (hlt : lsector < 2 ^ 32) :
    Sane ok (seekExtent inode lsector) := by
  have hthis : (if inode.thisExtent.unusable lsector then inode.nextExtent
      else inode.thisExtent).lstart + (if inode.thisExtent.unusable lsector then inode.nextExtent
      else inode.thisExtent).len < 2 ^ 32 := by
    split_ifs
    · exact h.next_lt
    · exact h.this_lt
  rw [seekExtent]
  dsimp only
  generalize (if inode.thisExtent.unusable lsector then inode.nextExtent
    else inode.thisExtent) = this at hthis ⊢
  split_ifs with husable
  · exact ⟨h.pvt_ok, hlt, h.next_lt⟩
  · rw [Extent.unusable, u32_of_lt hthis, Bool.or_eq_true, decide_eq_true_eq, decide_eq_true_eq,
      not_or] at husable
    refine ⟨h.pvt_ok, ?_, h.next_lt⟩
    dsimp only
    omega

/-- What a read does: nothing is stored when it has no sectors to read, and nothing is
transferred when there is no extent for the first one. -/
theorem genericGetfssec_returns (hfs : NoWrap fs ok) {fuel : Nat} (hfuel : 2 ^ 33 ≤ fuel)
    {inode : Inode σ} (h : Sane ok inode) {offset n : Nat} (hoffset : offset < 2 ^ 32) :
    ∃ got, genericGetfssec fs fuel inode offset n = some got ∧ Sane ok got.inode ∧
      got.offset < 2 ^ 32 ∧
      if min n (sectorsLeft fs inode offset) = 0 then got.data = [] ∧ got.haveMore = none
      else if HasExtent fs (seekExtent inode (offset / fs.sectorSize)) then got.data ≠ []
      else got.data = [] ∧ got.haveMore = some true := by
  have hss := fs.sectorSize_pos
  have hleft : sectorsLeft fs inode offset ≠ 0 →
      0 < u32 (inode.size.toNat + 2 ^ 32 - offset) := by
    intro hne
    refine Nat.pos_of_ne_zero fun hzero => hne ?_
    rw [sectorsLeft, hzero, Nat.zero_add, u32_of_lt (by have := fs.sectorSize_lt; omega),
      Nat.div_eq_of_lt (Nat.sub_lt hss Nat.one_pos)]
  have hmul : min n (sectorsLeft fs inode offset) * fs.sectorSize < 2 ^ 32 := by
    refine Nat.lt_of_le_of_lt (Nat.mul_le_mul_right _ (Nat.min_le_right _ _)) ?_
    refine Nat.lt_of_le_of_lt (Nat.div_mul_le_self _ _) (Nat.mod_lt _ (by decide))
  rw [genericGetfssec]
  dsimp only
  rw [show u32 (u32 (inode.size.toNat + 2 ^ 32 - offset) + fs.sectorSize - 1) / fs.sectorSize =
    sectorsLeft fs inode offset from rfl]
  generalize hcount : min n (sectorsLeft fs inode offset) = count at hmul
  by_cases h0 : count = 0
  · rw [if_pos h0]
    refine ⟨_, rfl, h, hoffset, ?_⟩
    rw [if_pos h0]
    exact ⟨rfl, rfl⟩
  rw [if_neg h0]
  have hleftPos := hleft (by omega)
  have hcountLe : count ≤ count * fs.sectorSize := Nat.le_mul_of_pos_right _ hss
  have hsector : offset / fs.sectorSize < 2 ^ 32 :=
    Nat.lt_of_le_of_lt (Nat.div_le_self _ _) hoffset
  obtain ⟨inode', bytesRead, buf, hrun, h', -, -, hlength, hsome, hnone⟩ :=
    @readLoop_returns _ _ _ hfs fuel _ count 0 [] (h.seek hsector) (by omega) (by omega)
  rw [hrun]
  rw [List.length_nil, Nat.add_zero, Nat.zero_add] at hlength
  refine ⟨_, rfl, h', Nat.mod_lt _ (by decide), ?_⟩
  rw [if_neg h0]
  split_ifs with hhas
  · have hpos := hsome (Nat.pos_of_ne_zero h0) hhas
    refine List.ne_nil_of_length_pos ?_
    rw [List.length_take]
    omega
  · rw [hnone hhas, Nat.zero_min]
    exact ⟨@List.take_zero _ buf, congrArg some (decide_eq_true hleftPos)⟩

/-! ## One iteration -/

variable {fuel limit : Nat} {callback : Bool} {s t : LoadState σ}

/-- An iteration goes on with fewer bytes left. -/
def Progress (step : LoadState σ → Step (LoadState σ) (LoadFlag × LoadState σ))
    (s : LoadState σ) : Prop :=
  step s ≠ .hang ∧ ∀ t, step s = .next t → t.bytes < s.bytes

/-- What holds of the file between two iterations. -/
structure LoadState.Ok (ok : σ → Prop) (s : LoadState σ) : Prop where
  sane : Sane ok s.inode
  offset_lt : s.offset < 2 ^ 32

/-- One round of the loop keeps the state good. -/
theorem LoadState.Ok.step (hfs : NoWrap fs ok) (hfuel : 2 ^ 33 ≤ fuel) (h : s.Ok ok)
    (hstep : loadStep fs fuel limit callback s = .next t) : t.Ok ok := by
  obtain ⟨got, hgot, hsane, hoffset, -⟩ :=
    @genericGetfssec_returns _ _ _ hfs _ hfuel _ h.sane _ (s.request fs limit callback) h.offset_lt
  rw [loadStep, hgot] at hstep
  dsimp only at hstep
  split_ifs at hstep
  obtain rfl := Step.next.inj hstep
  exact ⟨hsane, hoffset⟩

/-- A chunk takes no more than what is left. -/
theorem chunk_le (s : LoadState σ) : s.chunk fs limit callback ≤ s.bytes := by
  rw [LoadState.chunk]
  split_ifs
  · omega
  · omega
  · omega
  · omega

theorem chunk_pos (h : s.request fs limit callback ≠ 0) : 0 < s.chunk fs limit callback := by
  refine Nat.pos_of_ne_zero fun hzero => h ?_
  have hss := fs.sectorSize_pos
  have hlt := fs.sectorSize_lt
  rw [LoadState.request, hzero, Nat.zero_add, u32_of_lt (by omega),
    Nat.div_eq_of_lt (Nat.sub_lt hss Nat.one_pos)]

/-- An iteration goes on with fewer bytes left or ends, if and only if the call is fed. -/
theorem progress_iff (hfs : NoWrap fs ok) (hfuel : 2 ^ 33 ≤ fuel) (h : s.Ok ok) :
    Progress (loadStep fs fuel limit callback) s ↔ Feeds fs limit callback s := by
  obtain ⟨got, hgot, -, -, hspec⟩ :=
    @genericGetfssec_returns _ _ _ hfs _ hfuel _ h.sane _ (s.request fs limit callback) h.offset_lt
  have hchunk := @chunk_le _ fs limit callback s
  rw [Progress, Feeds, loadStep, hgot]
  dsimp only
  by_cases hbytes : s.bytes = 0
  · rw [if_pos hbytes]
    exact ⟨fun _ => Or.inl hbytes, fun _ => ⟨fun h => (nomatch h), fun _ h => nomatch h⟩⟩
  by_cases hroom : u32 (s.buf + fs.sectorSize) > limit
  · rw [if_neg hbytes, if_pos hroom]
    exact ⟨fun _ => Or.inr (Or.inl hroom), fun _ => ⟨fun h => (nomatch h), fun _ h => nomatch h⟩⟩
  rw [if_neg hbytes, if_neg hroom]
  simp only [hbytes, hroom, false_or]
  by_cases h0 : min (s.request fs limit callback) (sectorsLeft fs s.inode s.offset) = 0
  · rw [if_pos h0] at hspec ⊢
    rw [hspec.1, hspec.2, Option.getD_none, List.length_nil, Nat.zero_min, Nat.sub_zero]
    cases hmore : s.haveMore with
    | true =>
      refine ⟨fun h => ?_, fun h => nomatch h⟩
      exact absurd (h.2 _ (if_pos rfl)) (lt_irrefl _)
    | false => exact ⟨fun _ => rfl, fun _ => ⟨fun h => (nomatch h), fun _ h => nomatch h⟩⟩
  rw [if_neg h0] at hspec ⊢
  by_cases hhas : HasExtent fs (seekExtent s.inode (s.offset / fs.sectorSize))
  · rw [if_pos hhas] at hspec
    refine ⟨fun _ => hhas, fun _ => ⟨?_, fun t hnext => ?_⟩⟩
    · split_ifs
      · exact fun h => nomatch h
      · exact fun h => nomatch h
    · split_ifs at hnext
      obtain rfl := Step.next.inj hnext
      have hpos := List.length_pos_iff.mpr hspec
      have hchunkPos := @chunk_pos _ fs limit callback s fun hzero => h0 (by omega)
      dsimp only
      omega
  · rw [if_neg hhas] at hspec
    rw [hspec.1, hspec.2, Option.getD_some, if_pos rfl, List.length_nil, Nat.zero_min,
      Nat.sub_zero]
    exact ⟨fun h => absurd (h.2 _ rfl) (lt_irrefl _), fun h => absurd h hhas⟩

/-! ## The loop -/

/-- The loop ends, and each of its iterations transfers bytes or is the last one, if and only if
all its calls are fed: a call that is not fed transfers nothing, and leaves `have_more` true. -/
theorem pm_load_high_ends_iff (fs : FsInfo σ) (ok : σ → Prop) (hfs : NoWrap fs ok)
    (regs : LoadRegs) (inode : Inode σ) (hinode : Sane ok inode) (offset : Nat)
    (hoffset : offset < 2 ^ 32) (garbage : Bool) (fuel : Nat) (hfuel : 2 ^ 33 ≤ fuel) :
    ((∃ iterations loaded,
        pmLoadHigh fs fuel iterations regs inode offset garbage = some loaded) ∧
      ∀ s, Reaches (regs.step fs fuel) (loadInit regs inode offset garbage) s →
        Progress (regs.step fs fuel) s) ↔
      ∀ s, Reaches (regs.step fs fuel) (loadInit regs inode offset garbage) s →
        Feeds fs regs.limit (regs.bx ≠ 0) s := by
  have hok : ∀ s, Reaches (regs.step fs fuel) (loadInit regs inode offset garbage) s → s.Ok ok :=
    fun s hreach => hreach.inv ⟨hinode, hoffset⟩ fun _ _ h hstep => h.step hfs hfuel hstep
  constructor
  · rintro ⟨-, hprogress⟩ s hreach
    exact (progress_iff hfs hfuel (hok s hreach)).mp (hprogress s hreach)
  · intro hfeeds
    have hprogress : ∀ s, Reaches (regs.step fs fuel) (loadInit regs inode offset garbage) s →
        Progress (regs.step fs fuel) s :=
      fun s hreach => (progress_iff hfs hfuel (hok s hreach)).mpr (hfeeds s hreach)
    obtain ⟨n, result, hrun⟩ := runLoop_ends LoadState.bytes hprogress
    refine ⟨⟨n, ?_⟩, hprogress⟩
    rw [pmLoadHigh, hrun]
    exact ⟨_, rfl⟩

/-! ## Examples -/

/-- A file of up to two sectors, which lie from sector 100 on. -/
def sampleFs : FsInfo Unit :=
  ⟨fun _ lstart => ⟨2 ≤ lstart, 100 + lstart, 2 - lstart, ()⟩, 9, fun _ => List.replicate 512 0,
    usualShift_lt, zeroSectors_length⟩

/-- A file whose sectors are not found. -/
def failingFs : FsInfo Unit :=
  ⟨fun _ _ => ⟨true, 0, 0, ()⟩, 9, fun _ => List.replicate 512 0, usualShift_lt,
    zeroSectors_length⟩

def sampleRegs : LoadRegs := ⟨0xFFFFFFFF, 1, 3, 0x120000, 0x1000000⟩

/-- An inode just opened is sane. -/
theorem sane_fresh (size : UInt32) : Sane (fun _ => True) (Inode.fresh size ()) :=
  ⟨trivial, (by decide : 0 + 0 < 2 ^ 32), (by decide : 0 + 0 < 2 ^ 32)⟩

/-- A file of 1000 bytes. -/
theorem pm_load_high_ends_iff_sample :
    ((∃ iterations loaded, pmLoadHigh sampleFs (2 ^ 33) iterations sampleRegs
        (Inode.fresh 1000 ()) 0 true = some loaded) ∧
      ∀ s, Reaches (sampleRegs.step sampleFs (2 ^ 33))
          (loadInit sampleRegs (Inode.fresh 1000 ()) 0 true) s →
        Progress (sampleRegs.step sampleFs (2 ^ 33)) s) ↔
      ∀ s, Reaches (sampleRegs.step sampleFs (2 ^ 33))
          (loadInit sampleRegs (Inode.fresh 1000 ()) 0 true) s →
        Feeds sampleFs sampleRegs.limit (sampleRegs.bx ≠ 0) s :=
  pm_load_high_ends_iff sampleFs (fun _ => True)
    (fun _ lstart _ => ⟨trivial, fun herr => by
      have hlt : lstart < 2 := Nat.not_le.mp (of_decide_eq_false herr)
      change lstart + (2 - lstart) < 2 ^ 32
      omega⟩)
    sampleRegs (Inode.fresh 1000 ()) (sane_fresh 1000) 0 (by decide) true (2 ^ 33) le_rfl

/-- A file of 1000 bytes whose first sector is not found is read forever. -/
theorem pm_load_high_hangs : ¬∀ (fs : FsInfo Unit) (ok : Unit → Prop) (regs : LoadRegs)
    (inode : Inode Unit) (offset : Nat) (garbage : Bool), NoWrap fs ok → Sane ok inode →
      offset < 2 ^ 32 →
        (∃ iterations loaded,
          pmLoadHigh fs (2 ^ 33) iterations regs inode offset garbage = some loaded) ∧
        ∀ s, Reaches (regs.step fs (2 ^ 33)) (loadInit regs inode offset garbage) s →
          Progress (regs.step fs (2 ^ 33)) s := by
  intro h
  have hfs : NoWrap failingFs fun _ => True := fun _ _ _ => ⟨trivial, fun herr => nomatch herr⟩
  have hsane := sane_fresh 1000
  obtain ⟨-, hprogress⟩ := h failingFs (fun _ => True) sampleRegs (Inode.fresh 1000 ()) 0 false hfs
    hsane (by decide)
  have hfeeds := (progress_iff hfs le_rfl ⟨hsane, by decide⟩).mp (hprogress _ .start)
  rcases hfeeds with hbytes | hroom | hread
  · exact absurd hbytes (by decide)
  · exact absurd hroom (by decide)
  · exact absurd hread (by decide)

end Liigboot.Fs
