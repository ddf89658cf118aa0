import Liigboot.Fs.LoadLoop

/-!
# What a read tells of the rest of the file

`generic_getfssec` stores `have_more` when it reads sectors, and compares what it transferred with
what the file has left. Its callers do not initialize the variable, and close the file when it is
false. A driver may fail for some sectors of a file: a read stops in front of the first of them, and
so does each read behind it.
-/

namespace Liigboot.Fs

variable {σ : Type}

/-! ## The callers -/

/-- What a caller of `getfssec` leaves: the bytes, and the file unless it was closed. -/
structure FileRead (σ : Type) where
  data : List UInt8
  file : Option (Inode σ × Nat)

/-- A read, and closing the file at its end; `garbage` is what `have_more` holds. -/
def readAndClose (fs : FsInfo σ) (fuel : Nat) (garbage : Bool) (inode : Inode σ)
    (offset sectors : Nat) : Option (FileRead σ) :=
  (genericGetfssec fs fuel inode offset sectors).map fun got =>
    ⟨got.data, if got.haveMore.getD garbage then some (got.inode, got.offset) else none⟩

/-- `getfssec`. -/
def getfssec (fs : FsInfo σ) (fuel : Nat) (garbage : Bool) (inode : Inode σ) (offset : Nat)
    (cx : UInt16) : Option (FileRead σ) :=
  readAndClose fs fuel garbage inode offset cx.toNat

/-- `getfsbytes`. -/
def getfsbytes (fs : FsInfo σ) (fuel : Nat) (garbage : Bool) (inode : Inode σ) (offset : Nat)
    (cx : UInt16) : Option (FileRead σ) :=
  readAndClose fs fuel garbage inode offset (cx.toNat / fs.sectorSize)

/-- `pmapi_read_file`. -/
def pmapiReadFile (fs : FsInfo σ) (fuel : Nat) (garbage : Bool) (inode : Inode σ) (offset : Nat)
    (sectors : UInt32) : Option (FileRead σ) :=
  readAndClose fs fuel garbage inode offset sectors.toNat

/-! ## What is promised -/

/-- Bytes of the file remain behind a read, and a later read can deliver some of them. -/
def Remains (fs : FsInfo σ) (fuel : Nat) (got : Got σ) : Prop :=
  got.offset < got.inode.size.toNat ∧
    ∃ n later, genericGetfssec fs fuel got.inode got.offset n = some later ∧ later.data ≠ []

/-- What is promised of a read: `have_more` is stored, it is true when bytes remain that can be
delivered, and for none of the callers it matters what the variable held. -/
structure TellsMore (fs : FsInfo σ) (fuel : Nat) (inode : Inode σ) (offset n : Nat) (got : Got σ) :
    Prop where
  stored : got.haveMore ≠ none
  exact : got.haveMore = some true ↔ Remains fs fuel got
  getfssec : ∀ cx : UInt16, cx.toNat = n → ∀ garbage garbage',
    getfssec fs fuel garbage inode offset cx = getfssec fs fuel garbage' inode offset cx
  getfsbytes : ∀ cx : UInt16, cx.toNat / fs.sectorSize = n → ∀ garbage garbage',
    getfsbytes fs fuel garbage inode offset cx = getfsbytes fs fuel garbage' inode offset cx
  pmapiReadFile : ∀ sectors : UInt32, sectors.toNat = n → ∀ garbage garbage',
    pmapiReadFile fs fuel garbage inode offset sectors =
      pmapiReadFile fs fuel garbage' inode offset sectors
  pmLoadHigh : ∀ limit callback (s : LoadState σ) garbage, s.inode = inode → s.offset = offset →
    s.request fs limit callback = n → s.bytes ≠ 0 → u32 (s.buf + fs.sectorSize) ≤ limit →
    loadStep fs fuel limit callback { s with haveMore := garbage } =
      loadStep fs fuel limit callback s

/-! ## Drivers that fail -/

/-- A driver that maps some sectors of a file and fails for the others. Asked for a sector that it
maps, it returns a run of at least one sector, all of which it maps. -/
structure Answers (fs : FsInfo σ) (size : UInt32) (ok : σ → Prop) (mapped : Nat → Prop) : Prop where
  kept : ∀ (inode : Inode σ) (lstart : Nat), inode.size = size → ok inode.pvt →
    lstart < fs.sectorsOf size.toNat → ok (fs.nextExtent inode lstart).pvt
  found : ∀ (inode : Inode σ) (lstart : Nat), inode.size = size → ok inode.pvt →
    lstart < fs.sectorsOf size.toNat → mapped lstart →
    (fs.nextExtent inode lstart).error = false ∧ 0 < (fs.nextExtent inode lstart).len ∧
      lstart + (fs.nextExtent inode lstart).len < 2 ^ 32 ∧
      ∀ j < (fs.nextExtent inode lstart).len, mapped (lstart + j)
  failed : ∀ (inode : Inode σ) (lstart : Nat), inode.size = size → ok inode.pvt →
    lstart < fs.sectorsOf size.toNat → ¬mapped lstart →
    (fs.nextExtent inode lstart).error = true ∨ (fs.nextExtent inode lstart).len = 0

/-- An extent of sectors that the driver maps. -/
structure Extent.Within (mapped : Nat → Prop) (e : Extent) : Prop where
  end_lt : e.lstart + e.len < 2 ^ 32
  mapped : ∀ j < e.len, mapped (e.lstart + j)

/-- What holds of an inode between two steps of a read. -/
structure Held (size : UInt32) (ok : σ → Prop) (mapped : Nat → Prop) (inode : Inode σ) : Prop where
  size_eq : inode.size = size
  pvt_ok : ok inode.pvt
  this_within : inode.thisExtent.Within mapped
  next_within : inode.nextExtent.Within mapped

variable {fs : FsInfo σ} {fuel : Nat} {size : UInt32} {ok : σ → Prop} {mapped : Nat → Prop}
  {inode : Inode σ}

theorem Extent.Within.empty {e : Extent} (h : e.lstart < 2 ^ 32) (h0 : e.len = 0) :
    e.Within mapped :=
  ⟨by omega, fun j hj => absurd hj (by omega)⟩

theorem Held.fresh {pvt : σ} (h : ok pvt) : Held size ok mapped (Inode.fresh size pvt) :=
  ⟨rfl, h, Extent.Within.empty (Nat.two_pow_pos 32) rfl,
    Extent.Within.empty (Nat.two_pow_pos 32) rfl⟩

theorem Held.setThis (h : Held size ok mapped inode) {e : Extent} (he : e.Within mapped) :
    Held size ok mapped { inode with thisExtent := e } :=
  ⟨h.size_eq, h.pvt_ok, he, h.next_within⟩

/-- The rest of an extent behind its first `d` sectors. -/
theorem Extent.Within.advance {e : Extent} (h : e.Within mapped) {d p : Nat} (hd : d ≤ e.len) :
    Extent.Within mapped ⟨p, e.lstart + d, e.len - d⟩ := by
  have hend := h.end_lt
  refine ⟨?_, fun j hj => ?_⟩
  · dsimp only
    omega
  · dsimp only at hj ⊢
    rw [Nat.add_assoc]
    exact h.mapped _ (by omega)

/-- An extent and the one behind it. -/
theorem Extent.Within.join {e f : Extent} {p : Nat} (he : e.Within mapped) (hf : f.Within mapped)
    (hl : f.lstart = e.lstart + e.len) : Extent.Within mapped ⟨p, e.lstart, e.len + f.len⟩ := by
  have hend := hf.end_lt
  refine ⟨?_, fun j hj => ?_⟩
  · dsimp only
    omega
  · dsimp only at hj ⊢
    by_cases hlt : j < e.len
    · exact he.mapped j hlt
    · have hmapped := hf.mapped (j - e.len) (by omega)
      have hplace : f.lstart + (j - e.len) = e.lstart + j := by omega
      rw [hplace] at hmapped
      exact hmapped

/-- The extent behind the current one is there if the driver maps its first sector, and only
then. -/
theorem Held.refetch (hans : Answers fs size ok mapped) (h : Held size ok mapped inode)
    (hlt : inode.thisExtent.lstart + inode.thisExtent.len < fs.sectorsOf size.toNat) :
    Held size ok mapped (refetch fs inode) ∧
      (refetch fs inode).thisExtent = inode.thisExtent ∧
      ((refetch fs inode).nextExtent.len ≠ 0 ↔
        mapped (inode.thisExtent.lstart + inode.thisExtent.len)) ∧
      (refetch fs inode).nextExtent.lstart = inode.thisExtent.lstart + inode.thisExtent.len := by
  have hend := u32_of_lt h.this_within.end_lt
  rw [Fs.refetch, hend]
  split_ifs with hc
  · rw [getNextExtent, hend]
    have hkept := hans.kept inode _ h.size_eq h.pvt_ok hlt
    by_cases hmapped : mapped (inode.thisExtent.lstart + inode.thisExtent.len)
    · obtain ⟨herr, hpos, hendLt, hall⟩ := hans.found inode _ h.size_eq h.pvt_ok hlt hmapped
      dsimp only
      rw [herr, if_neg Bool.false_ne_true]
      exact ⟨⟨h.size_eq, hkept, h.this_within, hendLt, hall⟩, rfl,
        iff_of_true hpos.ne' hmapped, rfl⟩
    · have hfailed := hans.failed inode _ h.size_eq h.pvt_ok hlt hmapped
      dsimp only
      have hzero : (if (fs.nextExtent inode
          (inode.thisExtent.lstart + inode.thisExtent.len)).error = true then 0
          else (fs.nextExtent inode
            (inode.thisExtent.lstart + inode.thisExtent.len)).len) = 0 := by
        split_ifs with herr
        · rfl
        · exact hfailed.resolve_left herr
      rw [hzero]
      exact ⟨⟨h.size_eq, hkept, h.this_within,
        Extent.Within.empty h.this_within.end_lt rfl⟩, rfl,
        iff_of_false (fun hne => hne rfl) hmapped, rfl⟩
  · rw [not_or, not_not] at hc
    refine ⟨h, rfl, iff_of_true hc.1 ?_, hc.2⟩
    rw [← hc.2]
    exact h.next_within.mapped 0 (Nat.pos_of_ne_zero hc.1)

/-- Looking ahead leaves an extent to read from, if the driver maps the first sector. -/
theorem Held.lookahead (hans : Answers fs size ok mapped) (fuel : Nat) {n : Nat}
    (h : Held size ok mapped inode) (hn : 0 < n)
    (hlt : inode.thisExtent.lstart + n ≤ fs.sectorsOf size.toNat)
    (hfuel : n - inode.thisExtent.len < fuel) :
    ∃ inode' n', Fs.lookahead fs fuel inode n = some (inode', n') ∧
      Held size ok mapped inode' ∧ inode'.thisExtent.lstart = inode.thisExtent.lstart ∧
      (mapped inode.thisExtent.lstart → n' = n ∧ 0 < inode'.thisExtent.len) ∧
      (¬mapped inode.thisExtent.lstart → n' = 0) := by
  induction fuel generalizing inode with
  | zero => exact absurd hfuel (Nat.not_lt_zero _)
  | succ fuel ih =>
    rw [Fs.lookahead]
    by_cases hle : n ≤ inode.thisExtent.len
    · have hlen : 0 < inode.thisExtent.len := hn.trans_le hle
      rw [if_pos hle]
      exact ⟨inode, n, rfl, h, rfl, fun _ => ⟨rfl, hlen⟩,
        fun hnot => absurd (h.this_within.mapped 0 hlen) hnot⟩
    rw [if_neg hle]
    obtain ⟨h₁, hthis, hnext, hstart⟩ := h.refetch hans (by omega)
    rw [show (if inode.nextExtent.len = 0 ∨ inode.nextExtent.lstart ≠
      u32 (inode.thisExtent.lstart + inode.thisExtent.len) then getNextExtent fs inode
      else inode) = Fs.refetch fs inode from rfl]
    generalize Fs.refetch fs inode = inode₁ at h₁ hthis hnext hstart
    dsimp only
    rw [hthis]
    by_cases h0 : inode.thisExtent.len = 0
    · rw [h0, Nat.add_zero] at hnext hstart
      rw [if_pos h0]
      by_cases hnone : inode₁.nextExtent.len = 0
      · rw [if_pos hnone]
        refine ⟨_, _, rfl, h₁.setThis h₁.next_within, hstart, fun hmapped => ?_, fun _ => rfl⟩
        exact absurd hnone (hnext.mpr hmapped)
      · rw [if_neg hnone]
        obtain ⟨inode', n', hrun, h', hl, hsome, hfail⟩ := @ih
          { inode₁ with thisExtent := inode₁.nextExtent } (h₁.setThis h₁.next_within)
          (by dsimp only; omega) (by dsimp only; omega)
        dsimp only at hl hsome hfail
        rw [hstart] at hl hsome hfail
        exact ⟨inode', n', hrun, h', hl, hsome, hfail⟩
    · have hfirst : mapped inode.thisExtent.lstart :=
        h.this_within.mapped 0 (Nat.pos_of_ne_zero h0)
      rw [if_neg h0]
      by_cases hjoin : inode₁.nextExtent.len ≠ 0 ∧
          inode₁.nextExtent.pstart = nextPstart inode.thisExtent
      · have hwithin := @Extent.Within.join mapped _ _ inode.thisExtent.pstart h.this_within
          h₁.next_within hstart
        have hlen : u32 (inode.thisExtent.len + inode₁.nextExtent.len) =
            inode.thisExtent.len + inode₁.nextExtent.len := by
          have hend := hwithin.end_lt
          dsimp only at hend
          exact u32_of_lt (by omega)
        have hpos := Nat.pos_of_ne_zero hjoin.1
        rw [if_pos hjoin, hlen]
        exact ih (h₁.setThis hwithin) hlt (by dsimp only; omega)
      · rw [if_neg hjoin]
        refine ⟨inode₁, n, rfl, h₁, by rw [hthis], fun _ => ⟨rfl, ?_⟩,
          fun hnot => absurd hfirst hnot⟩
        rw [hthis]
        exact Nat.pos_of_ne_zero h0

/-! ## One read -/

/-- The loop of a read delivers the sectors in front of the first one that the driver does not
map. -/
theorem Held.readLoop (hans : Answers fs size ok mapped) (fuel : Nat) {n bytesRead : Nat}
    {buf : List UInt8} (h : Held size ok mapped inode)
    (hlt : inode.thisExtent.lstart + n ≤ fs.sectorsOf size.toNat)
    (hbytes : bytesRead + n * fs.sectorSize < 2 ^ 32) (hfuel : n + 2 ≤ fuel) :
    ∃ inode' k buf', Fs.readLoop fs fuel inode n bytesRead buf =
        some (inode', bytesRead + k * fs.sectorSize, buf') ∧
      buf'.length = buf.length + k * fs.sectorSize ∧ Held size ok mapped inode' ∧ k ≤ n ∧
      (∀ j < k, mapped (inode.thisExtent.lstart + j)) ∧
      (k < n → ¬mapped (inode.thisExtent.lstart + k)) := by
  induction fuel generalizing inode n bytesRead buf with
  | zero => exact absurd hfuel (Nat.not_succ_le_zero _)
  | succ fuel ih =>
    rw [Fs.readLoop]
    by_cases h0 : n = 0
    · rw [if_pos h0]
      refine ⟨inode, 0, buf, ?_, ?_, h, Nat.zero_le n, fun j hj => absurd hj (Nat.not_lt_zero j),
        fun hlt => absurd hlt (by omega)⟩
      · rw [Nat.zero_mul, Nat.add_zero]
      · rw [Nat.zero_mul, Nat.add_zero]
    obtain ⟨inode₁, n₁, hlook, h₁, hl, hsome, hnone⟩ :=
      h.lookahead hans fuel (Nat.pos_of_ne_zero h0) hlt (by omega)
    rw [if_neg h0, hlook]
    dsimp only
    by_cases hfirst : mapped inode.thisExtent.lstart
    · obtain ⟨rfl, hpos⟩ := hsome hfirst
      generalize hchunk : min n₁ inode₁.thisExtent.len = chunk
      have hle : chunk ≤ inode₁.thisExtent.len := hchunk ▸ Nat.min_le_right _ _
      have hcn : chunk ≤ n₁ := hchunk ▸ Nat.min_le_left _ _
      have hcpos : 0 < chunk := by omega
      have hmul : n₁ * fs.sectorSize = chunk * fs.sectorSize + (n₁ - chunk) * fs.sectorSize := by
        rw [← Nat.add_mul, Nat.add_sub_cancel' hcn]
      have hend := h₁.this_within.end_lt
      rw [u32_of_lt (by omega : inode₁.thisExtent.lstart + chunk < 2 ^ 32),
        u32_of_lt (by omega : chunk * fs.sectorSize < 2 ^ 32),
        u32_of_lt (by omega : bytesRead + chunk * fs.sectorSize < 2 ^ 32)]
      obtain ⟨inode', k, buf', hrun, hlength, h', hk, hall, hstop⟩ := @ih
        { inode₁ with thisExtent := ⟨if inode₁.thisExtent.pstart = extentZero then
          inode₁.thisExtent.pstart else u64 (inode₁.thisExtent.pstart + chunk),
          inode₁.thisExtent.lstart + chunk, inode₁.thisExtent.len - chunk⟩ } (n₁ - chunk)
        (bytesRead + chunk * fs.sectorSize) (buf ++ readChunk fs inode₁.thisExtent chunk)
        (h₁.setThis (h₁.this_within.advance hle)) (by dsimp only; omega) (by omega) (by omega)
      rw [List.length_append, length_readChunk (by omega)] at hlength
      dsimp only at hall hstop
      rw [hl] at hall hstop
      refine ⟨inode', chunk + k, buf', ?_, ?_, h', by omega, fun j hj => ?_, fun hlt => ?_⟩
      · rw [hrun, Nat.add_mul, Nat.add_assoc]
      · rw [hlength, Nat.add_mul, Nat.add_assoc]
      · by_cases hnow : j < chunk
        · rw [← hl]
          exact h₁.this_within.mapped j (Nat.lt_of_lt_of_le hnow hle)
        · have hlater := hall (j - chunk) (by omega)
          rw [Nat.add_assoc, Nat.add_sub_cancel' (Nat.le_of_not_lt hnow)] at hlater
          exact hlater
      · rw [← Nat.add_assoc]
        exact hstop (by omega)
    · -- the driver fails for the first sector
      have hn₁ := hnone hfirst
      subst hn₁
      have hend := h₁.this_within.end_lt
      have hplace : u32 (inode₁.thisExtent.lstart + 0) = inode₁.thisExtent.lstart :=
        u32_of_lt (by omega)
      have hzero : u32 (bytesRead + u32 0) = bytesRead := by
        rw [u32_of_lt (Nat.two_pow_pos 32), Nat.add_zero]
        exact u32_of_lt (by omega)
      rw [Nat.zero_min, Nat.zero_mul, Nat.sub_zero, Nat.sub_zero, hzero, hplace]
      obtain ⟨fuel, rfl⟩ := Nat.exists_eq_add_of_le' (show 1 ≤ fuel by omega)
      generalize (if inode₁.thisExtent.pstart = extentZero then inode₁.thisExtent.pstart
        else u64 (inode₁.thisExtent.pstart + 0)) = pstart
      rw [Fs.readLoop, if_pos rfl]
      refine ⟨{ inode₁ with thisExtent :=
        ⟨pstart, inode₁.thisExtent.lstart, inode₁.thisExtent.len⟩ }, 0,
        buf ++ readChunk fs inode₁.thisExtent 0, ?_, ?_,
        h₁.setThis ⟨hend, h₁.this_within.mapped⟩, Nat.zero_le n,
        fun j hj => absurd hj (Nat.not_lt_zero j), fun _ => hfirst⟩
      · rw [Nat.zero_mul, Nat.add_zero]
      · rw [List.length_append, length_readChunk (by omega)]

theorem Held.seekExtent (h : Held size ok mapped inode) {l : Nat} (hl : l < 2 ^ 32) :
    Held size ok mapped (Fs.seekExtent inode l) ∧ (Fs.seekExtent inode l).thisExtent.lstart = l := by
  have hcut : ∀ {e : Extent}, e.Within mapped → ¬e.unusable l = true →
      Extent.Within mapped ⟨nextPsector e.pstart (l - e.lstart), l, e.len - (l - e.lstart)⟩ := by
    intro e he hu
    simp only [Extent.unusable, Bool.or_eq_true, decide_eq_true_eq, not_or, not_lt, ge_iff_le,
      not_le, u32_of_lt he.end_lt] at hu
    have hadv := @Extent.Within.advance mapped e he (l - e.lstart)
      (nextPsector e.pstart (l - e.lstart)) (by omega)
    rw [Nat.add_sub_cancel' hu.1] at hadv
    exact hadv
  rw [Fs.seekExtent]
  dsimp only
  by_cases hthis : inode.thisExtent.unusable l = true
  · rw [if_pos hthis]
    by_cases hnext : inode.nextExtent.unusable l = true
    · rw [if_pos hnext]
      exact ⟨h.setThis (Extent.Within.empty hl rfl), rfl⟩
    · rw [if_neg hnext]
      exact ⟨h.setThis (hcut h.next_within hnext), rfl⟩
  · rw [if_neg hthis, if_neg hthis]
    exact ⟨h.setThis (hcut h.this_within hthis), rfl⟩

variable {offset n : Nat}

/-- The sectors that a read has to deliver at least, and what it stores for them. -/
structure Delivers (fs : FsInfo σ) (mapped : Nat → Prop) (offset left n k : Nat) (got : Got σ) :
    Prop where
  le : k ≤ n
  front : ∀ j < k, mapped (offset / fs.sectorSize + j)
  stops : k < n → k * fs.sectorSize < left → ¬mapped (offset / fs.sectorSize + k)
  length : got.data.length = min (k * fs.sectorSize) left
  offset_eq : got.offset = offset + min (k * fs.sectorSize) left
  haveMore : got.haveMore = some (decide (min (k * fs.sectorSize) left < left))

/-- Nothing is stored where there are no sectors to read. -/
theorem genericGetfssec_none (h : min n (sectorsLeft fs inode offset) = 0) :
    genericGetfssec fs fuel inode offset n = some ⟨[], inode, offset, none⟩ := by
  rw [genericGetfssec]
  exact if_pos h

theorem le_length_readChunk {e : Extent} {chunk : Nat} :
    u32 (chunk * fs.sectorSize) ≤ (readChunk fs e chunk).length := by
  rw [readChunk]
  split_ifs
  · rw [List.length_replicate]
  · refine (Nat.mod_le _ _).trans (Nat.le_of_eq ?_)
    induction chunk with
    | zero => rw [Nat.zero_mul]; rfl
    | succ chunk ih =>
      rw [List.range_succ, List.flatMap_append, List.length_append, List.flatMap_singleton,
        fs.disk_length, Nat.succ_mul, ih, FsInfo.sectorSize]

/-- The loop of a read counts no more bytes than it stores. -/
theorem readLoop_bytes_le {inode' : Inode σ} {bytesRead bytesRead' : Nat} {buf buf' : List UInt8}
    (h : readLoop fs fuel inode n bytesRead buf = some (inode', bytesRead', buf')) :
    bytesRead' + buf.length ≤ bytesRead + buf'.length := by
  induction fuel generalizing inode n bytesRead buf with
  | zero => cases h
  | succ fuel ih =>
    rw [readLoop] at h
    split_ifs at h
    · obtain ⟨-, hrest⟩ := Prod.mk.inj (Option.some.inj h)
      obtain ⟨rfl, rfl⟩ := Prod.mk.inj hrest
      exact Nat.le_refl _
    · cases hlook : lookahead fs fuel inode n with
      | none =>
        rw [hlook] at h
        cases h
      | some next =>
        rw [hlook] at h
        dsimp only at h
        have hchunk := @le_length_readChunk _ fs next.1.thisExtent
          (min next.2 next.1.thisExtent.len)
        have hcount : u32 (bytesRead + u32 (min next.2 next.1.thisExtent.len * fs.sectorSize)) ≤
            bytesRead + u32 (min next.2 next.1.thisExtent.len * fs.sectorSize) := Nat.mod_le _ _
        have hrest := ih h
        rw [List.length_append] at hrest
        omega

/-- A read that has sectors to read and returns nothing tells that there is more. -/
theorem haveMore_of_empty {got : Got σ} (h : genericGetfssec fs fuel inode offset n = some got)
    (hsome : min n (sectorsLeft fs inode offset) ≠ 0) (hempty : got.data = []) :
    got.haveMore = some true := by
  have hss := fs.sectorSize_pos
  have hleft : 0 < u32 (inode.size.toNat + 2 ^ 32 - offset) := by
    refine Nat.pos_of_ne_zero fun hzero => hsome ?_
    rw [sectorsLeft, hzero, Nat.zero_add, u32_of_lt (by have := fs.sectorSize_lt; omega),
      Nat.div_eq_of_lt (Nat.sub_lt hss Nat.one_pos), Nat.min_zero]
  rw [genericGetfssec] at h
  dsimp only at h
  rw [show u32 (u32 (inode.size.toNat + 2 ^ 32 - offset) + fs.sectorSize - 1) / fs.sectorSize =
    sectorsLeft fs inode offset from rfl, if_neg hsome] at h
  cases hloop : readLoop fs fuel (seekExtent inode (offset / fs.sectorSize))
      (min n (sectorsLeft fs inode offset)) 0 [] with
  | none =>
    rw [hloop] at h
    cases h
  | some result =>
    obtain ⟨inode', bytesRead, buf⟩ := result
    have hle := readLoop_bytes_le hloop
    rw [hloop] at h
    obtain rfl := Option.some.inj h
    have hlength := congrArg List.length hempty
    rw [List.length_take] at hlength
    rw [List.length_nil] at hle hlength
    exact congrArg some (decide_eq_true (by omega))

/-- A read of some sectors delivers those in front of the first one that the driver does not
map. -/
theorem Held.read (hans : Answers fs size ok mapped) (h : Held size ok mapped inode)
    (hn : 0 < n) (hlt : offset < size.toNat)
    (hround : size.toNat - offset + fs.sectorSize - 1 < 2 ^ 32) (hfuel : 2 ^ 33 ≤ fuel) :
    ∃ got k, genericGetfssec fs fuel inode offset n = some got ∧
      Held size ok mapped got.inode ∧
      Delivers fs mapped offset (size.toNat - offset) n k got := by
  have hss := fs.sectorSize_pos
  have hs := size.toNat_lt
  have hleft : u32 (inode.size.toNat + 2 ^ 32 - offset) = size.toNat - offset := by
    rw [h.size_eq, u32]
    omega
  rw [genericGetfssec, hleft, u32_of_lt hround]
  -- as many sectors as are asked for, and no more than are left
  have hcount : ∀ k, k < (size.toNat - offset + fs.sectorSize - 1) / fs.sectorSize ↔
      k * fs.sectorSize < size.toNat - offset := by
    intro k
    rw [Nat.lt_iff_add_one_le, Nat.le_div_iff_mul_le hss, Nat.succ_mul]
    omega
  have hmul : (size.toNat - offset + fs.sectorSize - 1) / fs.sectorSize * fs.sectorSize <
      2 ^ 32 := Nat.lt_of_le_of_lt (Nat.div_mul_le_self _ _) hround
  have hsectors : offset / fs.sectorSize +
      (size.toNat - offset + fs.sectorSize - 1) / fs.sectorSize ≤ fs.sectorsOf size.toNat := by
    rw [FsInfo.sectorsOf, Nat.le_div_iff_mul_le hss, Nat.add_mul]
    have hfirst := Nat.div_mul_le_self offset fs.sectorSize
    have hrest := Nat.div_mul_le_self (size.toNat - offset + fs.sectorSize - 1) fs.sectorSize
    omega
  generalize (size.toNat - offset + fs.sectorSize - 1) / fs.sectorSize = left
    at hcount hmul hsectors
  have hpos : 0 < left := (hcount 0).mpr (by omega)
  have hmin : min n left * fs.sectorSize ≤ left * fs.sectorSize :=
    Nat.mul_le_mul_right _ (Nat.min_le_right _ _)
  have hself : left ≤ left * fs.sectorSize := Nat.le_mul_of_pos_right _ hss
  have hsectorLt : offset / fs.sectorSize < 2 ^ 32 :=
    Nat.lt_of_le_of_lt (Nat.div_le_self _ _) (by omega)
  obtain ⟨hseek, hstart⟩ := h.seekExtent hsectorLt
  obtain ⟨inode', k, buf, hrun, hlength, h', hk, hall, hstop⟩ :=
    @Held.readLoop _ _ _ _ _ _ hans fuel (min n left) 0 [] hseek (by omega) (by omega) (by omega)
  rw [hstart] at hall hstop
  rw [List.length_nil, Nat.zero_add] at hlength
  rw [if_neg (by omega : ¬min n left = 0), hrun]
  dsimp only
  rw [Nat.zero_add]
  refine ⟨_, k, rfl, h', by omega, hall, fun hlt hinside => hstop ?_, ?_, ?_, rfl⟩
  · have hk := (hcount k).mpr hinside
    omega
  · dsimp only
    rw [List.length_take, hlength]
    omega
  · exact u32_of_lt (by omega)

/-- A later read can deliver bytes when the driver maps the next sector. -/
theorem Held.delivers_iff (hans : Answers fs size ok mapped) (h : Held size ok mapped inode)
    (hlt : offset < size.toNat) (hround : size.toNat - offset + fs.sectorSize - 1 < 2 ^ 32)
    (hfuel : 2 ^ 33 ≤ fuel) :
    (∃ n later, genericGetfssec fs fuel inode offset n = some later ∧ later.data ≠ []) ↔
      mapped (offset / fs.sectorSize) := by
  have hss := fs.sectorSize_pos
  constructor
  · rintro ⟨n, later, hlater, hdata⟩
    have hn : 0 < n := by
      refine Nat.pos_of_ne_zero fun hzero => hdata ?_
      rw [genericGetfssec_none (by rw [hzero, Nat.zero_min])] at hlater
      rw [← Option.some.inj hlater]
    obtain ⟨got, k, hgot, -, hdelivers⟩ := h.read hans hn hlt hround hfuel
    rw [hlater] at hgot
    obtain rfl := Option.some.inj hgot
    have hlength := hdelivers.length
    have hpos := List.length_pos_iff.mpr hdata
    have hk : 0 < k := by
      refine Nat.pos_of_ne_zero fun hzero => ?_
      rw [hzero, Nat.zero_mul, Nat.zero_min] at hlength
      omega
    exact hdelivers.front 0 hk
  · intro hmapped
    obtain ⟨got, k, hgot, -, hdelivers⟩ := h.read hans Nat.one_pos hlt hround hfuel
    refine ⟨1, got, hgot, List.ne_nil_of_length_pos ?_⟩
    have hk : 0 < k := by
      refine Nat.pos_of_ne_zero fun hzero => ?_
      have hstops := hdelivers.stops
      rw [hzero, Nat.zero_mul] at hstops
      exact hstops Nat.one_pos (Nat.sub_pos_of_lt hlt) hmapped
    rw [hdelivers.length]
    exact Nat.lt_min.mpr ⟨Nat.mul_pos hk hss, Nat.sub_pos_of_lt hlt⟩

/-- Sectors are left in front of the end of the file only, and when rounding up does not wrap. -/
theorem sectorsLeft_pos (hsize : inode.size = size) (hle : offset ≤ size.toNat)
    (h : sectorsLeft fs inode offset ≠ 0) :
    offset < size.toNat ∧ size.toNat - offset + fs.sectorSize - 1 < 2 ^ 32 := by
  have hss := fs.sectorSize_pos
  have hssLt := fs.sectorSize_lt
  have hs := size.toNat_lt
  have hleft : u32 (inode.size.toNat + 2 ^ 32 - offset) = size.toNat - offset := by
    rw [hsize, u32]
    omega
  have hge : fs.sectorSize ≤ u32 (size.toNat - offset + fs.sectorSize - 1) := by
    by_contra hlt
    refine h ?_
    rw [sectorsLeft, hleft]
    exact Nat.div_eq_of_lt (Nat.lt_of_not_le hlt)
  rw [u32] at hge
  omega

/-- An iteration of `pm_load_high` whose read stores `have_more`. -/
theorem loadStep_read {limit chunk : Nat} {callback more : Bool} {s : LoadState σ} {got : Got σ}
    (hrequest : s.request fs limit callback = n) (hchunk : s.chunk fs limit callback = chunk)
    (hgot : genericGetfssec fs fuel s.inode s.offset n = some got)
    (hmore : got.haveMore = some more) (hbytes : s.bytes ≠ 0)
    (hfits : ¬u32 (s.buf + fs.sectorSize) > limit) :
    loadStep fs fuel limit callback s =
      if more then
        .next ⟨u32 (s.buf + min got.data.length chunk), s.bytes - min got.data.length chunk, more,
          got.inode, got.offset, s.data ++ got.data.take (min got.data.length chunk)⟩
      else
        .stop (.carry, ⟨u32 (s.buf + min got.data.length chunk),
          s.bytes - min got.data.length chunk, more, got.inode, got.offset,
          s.data ++ got.data.take (min got.data.length chunk)⟩) := by
  rw [loadStep, if_neg hbytes, if_neg hfits, hrequest, hgot, hchunk]
  dsimp only
  rw [hmore]
  rfl

/-- A read that stores the right value does what is promised. -/
theorem tellsMore_of_some {got : Got σ} {more : Bool}
    (hgot : genericGetfssec fs fuel inode offset n = some got) (hmore : got.haveMore = some more)
    (hexact : got.haveMore = some true ↔ Remains fs fuel got) :
    TellsMore fs fuel inode offset n got := by
  have hread : ∀ garbage garbage', readAndClose fs fuel garbage inode offset n =
      readAndClose fs fuel garbage' inode offset n := by
    intro garbage garbage'
    rw [readAndClose, readAndClose, hgot, Option.map_some, Option.map_some, hmore,
      Option.getD_some, Option.getD_some]
  refine ⟨?_, hexact, fun cx hcx garbage garbage' => ?_, fun cx hcx garbage garbage' => ?_,
    fun count hcount garbage garbage' => ?_, ?_⟩
  · rw [hmore]
    exact Option.some_ne_none more
  · rw [getfssec, getfssec, hcx]
    exact hread _ _
  · rw [getfsbytes, getfsbytes, hcx]
    exact hread _ _
  · rw [pmapiReadFile, pmapiReadFile, hcount]
    exact hread _ _
  · intro limit callback s garbage hinode hoffset hrequest hbytes hroom
    rw [← hinode, ← hoffset] at hgot
    have hfits := Nat.not_lt.mpr hroom
    have hchunk : { s with haveMore := garbage }.chunk fs limit callback =
        s.chunk fs limit callback := by
      rw [LoadState.chunk, LoadState.chunk]
    have hrequest' : { s with haveMore := garbage }.request fs limit callback = n := by
      rw [← hrequest, LoadState.request, LoadState.request, hchunk]
    exact (loadStep_read hrequest' hchunk hgot hmore hbytes hfits).trans
      (loadStep_read hrequest rfl hgot hmore hbytes hfits).symm

/-- What a read stores is right if bytes are left that can be read, and if the driver maps the
sectors that are asked for and the one behind them, as far as the file goes. -/
theorem have_more_iff (fs : FsInfo σ) (size : UInt32) (ok : σ → Prop) (mapped : Nat → Prop)
    (hans : Answers fs size ok mapped) (inode : Inode σ) (hheld : Held size ok mapped inode)
    (offset : Nat) (hoffset : offset ≤ size.toNat) (n fuel : Nat) (hfuel : 2 ^ 33 ≤ fuel) :
    ∃ got, genericGetfssec fs fuel inode offset n = some got ∧
      (Held size ok mapped got.inode ∧ got.offset ≤ size.toNat) ∧
      (TellsMore fs fuel inode offset n got ↔
        0 < n ∧ offset < size.toNat ∧ size.toNat - offset + fs.sectorSize - 1 < 2 ^ 32 ∧
          ∀ j ≤ n, offset + j * fs.sectorSize < size.toNat →
            mapped (offset / fs.sectorSize + j)) := by
  have hss := fs.sectorSize_pos
  by_cases hsome : 0 < n ∧ offset < size.toNat ∧
      size.toNat - offset + fs.sectorSize - 1 < 2 ^ 32
  · obtain ⟨hn, hlt, hround⟩ := hsome
    obtain ⟨got, k, hgot, hheld', hdelivers⟩ := hheld.read hans hn hlt hround hfuel
    have hoffset' := hdelivers.offset_eq
    refine ⟨got, hgot, ⟨hheld', by omega⟩, ?_⟩
    have htells : TellsMore fs fuel inode offset n got ↔
        (got.haveMore = some true ↔ Remains fs fuel got) :=
      ⟨fun h => h.exact, fun h => tellsMore_of_some hgot hdelivers.haveMore h⟩
    have hrest : k * fs.sectorSize < size.toNat - offset →
        (Remains fs fuel got ↔ mapped (offset / fs.sectorSize + k)) := by
      intro hinside
      rw [Nat.min_eq_left hinside.le] at hoffset'
      have hfirst : got.offset / fs.sectorSize = offset / fs.sectorSize + k := by
        rw [hoffset', Nat.add_mul_div_right _ _ hss]
      have hdeliver := @Held.delivers_iff _ fs fuel size ok mapped got.inode got.offset hans
        hheld' (by omega) (by omega) hfuel
      rw [hfirst] at hdeliver
      rw [Remains, hdeliver, hheld'.size_eq]
      exact and_iff_right (by omega)
    rw [htells, hdelivers.haveMore]
    by_cases hinside : k * fs.sectorSize < size.toNat - offset
    · -- the read stops in front of the end of the file
      rw [Nat.min_eq_left hinside.le, decide_eq_true hinside, hrest hinside]
      constructor
      · intro hexact
        have hnext := hexact.mp rfl
        have hall : k = n := by
          by_contra hne
          exact hdelivers.stops (Nat.lt_of_le_of_ne hdelivers.le hne) hinside hnext
        refine ⟨hn, hlt, hround, fun j hj _ => ?_⟩
        obtain hlast | hfront := Nat.eq_or_lt_of_le (hall ▸ hj)
        · rw [hlast]
          exact hnext
        · exact hdelivers.front j hfront
      · rintro ⟨-, -, -, hall⟩
        exact iff_of_true rfl (hall k hdelivers.le (by omega))
    · -- the read comes to the end of the file
      have hend : got.offset = size.toNat := by omega
      have hnone : ¬Remains fs fuel got := by
        rintro ⟨hmore, -⟩
        rw [hend, hheld'.size_eq] at hmore
        exact Nat.lt_irrefl _ hmore
      have hfalse : decide (min (k * fs.sectorSize) (size.toNat - offset) <
          size.toNat - offset) = false := decide_eq_false (by omega)
      rw [hfalse]
      refine iff_of_true (iff_of_false (fun h => nomatch h) hnone) ⟨hn, hlt, hround, ?_⟩
      intro j _ hj
      refine hdelivers.front j (Nat.lt_of_mul_lt_mul_right (a := fs.sectorSize) ?_)
      omega
  · have hzero : min n (sectorsLeft fs inode offset) = 0 := by
      refine Nat.min_eq_zero_iff.mpr ?_
      by_contra hboth
      obtain ⟨hn, hleft⟩ := not_or.mp hboth
      exact hsome ⟨Nat.pos_of_ne_zero hn, sectorsLeft_pos hheld.size_eq hoffset hleft⟩
    refine ⟨_, genericGetfssec_none hzero, ⟨hheld, hoffset⟩, iff_of_false ?_ ?_⟩
    · exact fun h => h.stored rfl
    · rintro ⟨hn, hlt, hround, -⟩
      exact hsome ⟨hn, hlt, hround⟩

/-! ## Examples -/

/-- A file of which the driver maps two sectors. -/
theorem sampleFs_answers (size : UInt32) :
    Answers sampleFs size (fun _ => True) fun l => l < 2 := by
  refine ⟨fun _ _ _ _ _ => trivial, fun inode l _ _ _ hl => ?_, fun inode l _ _ _ hl => ?_⟩
  · refine ⟨decide_eq_false (Nat.not_le.mpr hl), ?_, ?_, fun j hj => ?_⟩
    · exact Nat.sub_pos_of_lt hl
    · change l + (2 - l) < 2 ^ 32
      omega
    · change j < 2 - l at hj
      omega
  · exact Or.inl (decide_eq_true (Nat.le_of_not_lt hl))

/-- The first sector of three. -/
theorem have_more_iff_sample :
    ∃ got, genericGetfssec sampleFs (2 ^ 33) (Inode.fresh 1500 ()) 0 1 = some got ∧
      (Held 1500 (fun _ => True) (fun l => l < 2) got.inode ∧
        got.offset ≤ (1500 : UInt32).toNat) ∧
      (TellsMore sampleFs (2 ^ 33) (Inode.fresh 1500 ()) 0 1 got ↔
        0 < 1 ∧ 0 < (1500 : UInt32).toNat ∧
          (1500 : UInt32).toNat - 0 + sampleFs.sectorSize - 1 < 2 ^ 32 ∧
          ∀ j ≤ 1, 0 + j * sampleFs.sectorSize < (1500 : UInt32).toNat →
            0 / sampleFs.sectorSize + j < 2) :=
  have_more_iff sampleFs 1500 (fun _ => True) (fun l => l < 2) (sampleFs_answers 1500)
    (Inode.fresh 1500 ()) (Held.fresh trivial) 0 (Nat.zero_le _) 1 (2 ^ 33) le_rfl

/-- Of an empty file nothing is stored. -/
theorem have_more_unset : ¬∀ (fs : FsInfo Unit) (size : UInt32) (mapped : Nat → Prop)
    (inode : Inode Unit) (offset n : Nat), Answers fs size (fun _ => True) mapped →
      Held size (fun _ => True) mapped inode → offset ≤ size.toNat →
        ∃ got, genericGetfssec fs (2 ^ 33) inode offset n = some got ∧
          TellsMore fs (2 ^ 33) inode offset n got := by
  intro h
  obtain ⟨got, hgot, htells⟩ := h sampleFs 0 (fun l => l < 2) (Inode.fresh 0 ()) 0 1
    (sampleFs_answers 0) (Held.fresh trivial) (Nat.zero_le _)
  have hnone := @genericGetfssec_none _ sampleFs (2 ^ 33) (Inode.fresh 0 ()) 0 1
    (by decide +kernel)
  rw [hnone] at hgot
  obtain rfl := Option.some.inj hgot
  exact htells.stored rfl

end Liigboot.Fs
