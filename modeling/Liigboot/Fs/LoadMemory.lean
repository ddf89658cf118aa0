import Liigboot.Fs.LoadFile
import Liigboot.Lib.StringOps

/-!
# What `pm_load_high` stores

Each read stores whole sectors, from the place where the one before it ended, and the padding comes
last. A read stops in front of the limit; the padding is as long as the address behind the file is
beyond a multiple, and not as the next multiple is away.
-/

namespace Liigboot.Fs

variable {σ : Type}

/-! ## The stores -/

/-- The sectors that `generic_getfssec` stores, before the last one is cut. -/
def readBuffer (fs : FsInfo σ) (fuel : Nat) (inode : Inode σ) (offset sectors : Nat) :
    List UInt8 :=
  let bytesLeft := u32 (inode.size.toNat + 2 ^ 32 - offset)
  let sectorsLeft := u32 (bytesLeft + fs.sectorSize - 1) / fs.sectorSize
  let sectors := min sectors sectorsLeft
  if sectors = 0 then []
  else
    match readLoop fs fuel (seekExtent inode (offset / fs.sectorSize)) sectors 0 [] with
    | none => []
    | some (_, _, buf) => buf

/-- Some bytes stored from an address on. An address has 32 bits. -/
def storesFrom (buf : Nat) (bytes : List UInt8) : List (Nat × UInt8) :=
  (storesAt buf bytes).map fun (a, b) => (u32 a, b)

/-- The stores of an iteration of the loop of `pm_load_high`. -/
def LoadState.stores (fs : FsInfo σ) (fuel limit : Nat) (callback : Bool) (s : LoadState σ) :
    List (Nat × UInt8) :=
  if s.bytes = 0 then []
  else if u32 (s.buf + fs.sectorSize) > limit then []
  else storesFrom s.buf (readBuffer fs fuel s.inode s.offset (s.request fs limit callback))

/-- The stores of a number of iterations. -/
def loopStores (fs : FsInfo σ) (fuel limit : Nat) (callback : Bool) :
    Nat → LoadState σ → List (Nat × UInt8)
  | 0, _ => []
  | n + 1, s =>
    s.stores fs fuel limit callback ++
      match loadStep fs fuel limit callback s with
      | .next t => loopStores fs fuel limit callback n t
      | _ => []

/-- `memset(buf, 0, pad)`. -/
def padStores (regs : LoadRegs) (loaded : Loaded σ) : List (Nat × UInt8) :=
  storesFrom loaded.state.buf
    (List.replicate (UInt32.ofNat loaded.state.buf &&& regs.dx.toUInt32).toNat 0)

/-- The stores of `pm_load_high`. -/
def pmLoadHighStores (fs : FsInfo σ) (fuel iterations : Nat) (regs : LoadRegs) (inode : Inode σ)
    (offset : Nat) (garbage : Bool) (loaded : Loaded σ) : List (Nat × UInt8) :=
  loopStores fs fuel regs.limit (regs.bx ≠ 0) iterations (loadInit regs inode offset garbage) ++
    padStores regs loaded

variable {fs : FsInfo σ} {fuel limit : Nat} {callback : Bool} {inode : Inode σ} {offset n : Nat}
  {s t : LoadState σ} {flag : LoadFlag}

theorem storesFrom_eq {buf : Nat} {bytes : List UInt8} (h : buf + bytes.length ≤ 2 ^ 32) :
    storesFrom buf bytes = storesAt buf bytes := by
  refine (List.map_congr_left fun x hx => ?_).trans (List.map_id _)
  have hlt := (mem_storesAt hx).2
  exact Prod.ext (u32_of_lt (by omega)) rfl

/-- Looking ahead does not ask for more sectors. -/
theorem lookahead_le {inode' : Inode σ} {m m' : Nat}
    (h : lookahead fs fuel inode m = some (inode', m')) : m' ≤ m := by
  induction fuel generalizing inode with
  | zero => cases h
  | succ fuel ih =>
    rw [lookahead] at h
    dsimp only at h
    split_ifs at h
    · cases h
      exact Nat.le_refl _
    all_goals first
      | exact ih h
      | cases h; exact Nat.zero_le _
      | cases h; exact Nat.le_refl _

theorem length_readChunk_le {e : Extent} {chunk : Nat} :
    (readChunk fs e chunk).length ≤ chunk * fs.sectorSize := by
  rw [readChunk]
  split_ifs
  · rw [List.length_replicate]
    exact Nat.mod_le _ _
  · induction chunk with
    | zero => exact Nat.zero_le _
    | succ chunk ih =>
      rw [List.range_succ, List.flatMap_append, List.length_append, List.flatMap_singleton,
        fs.disk_length, Nat.succ_mul]
      exact Nat.add_le_add_right ih _

/-- A read stores no more than the sectors that it asks for. -/
theorem length_readLoop_le {inode' : Inode σ} {m bytesRead bytesRead' : Nat}
    {buf buf' : List UInt8}
    (h : readLoop fs fuel inode m bytesRead buf = some (inode', bytesRead', buf')) :
    buf'.length ≤ buf.length + m * fs.sectorSize := by
  induction fuel generalizing inode m bytesRead buf with
  | zero => cases h
  | succ fuel ih =>
    rw [readLoop] at h
    split_ifs at h with hzero
    · cases h
      exact Nat.le_add_right _ _
    · cases hlook : lookahead fs fuel inode m with
      | none =>
        rw [hlook] at h
        cases h
      | some next =>
        obtain ⟨inode₁, m₁⟩ := next
        rw [hlook] at h
        dsimp only at h
        have hm := lookahead_le hlook
        have hrest := ih h
        have hchunk := @length_readChunk_le _ fs inode₁.thisExtent
          (min m₁ inode₁.thisExtent.len)
        have hsplit : min m₁ inode₁.thisExtent.len * fs.sectorSize +
            (m₁ - min m₁ inode₁.thisExtent.len) * fs.sectorSize ≤ m * fs.sectorSize := by
          rw [← Nat.add_mul]
          exact Nat.mul_le_mul_right _ (by omega)
        rw [List.length_append] at hrest
        omega

theorem length_readBuffer_le :
    (readBuffer fs fuel inode offset n).length ≤ n * fs.sectorSize := by
  rw [readBuffer]
  split_ifs
  · exact Nat.zero_le _
  · split
    · exact Nat.zero_le _
    · rename_i hread
      refine (length_readLoop_le hread).trans ?_
      rw [List.length_nil, Nat.zero_add]
      exact Nat.mul_le_mul_right _ (Nat.min_le_left _ _)

/-- What a read returns is at the front of what it stores. -/
theorem data_front {got : Got σ} (h : genericGetfssec fs fuel inode offset n = some got) :
    got.data <+: readBuffer fs fuel inode offset n := by
  rw [genericGetfssec] at h
  rw [readBuffer]
  dsimp only at h ⊢
  split_ifs at h ⊢
  · cases h
    exact List.nil_prefix
  · cases hread : readLoop fs fuel (seekExtent inode (offset / fs.sectorSize))
        (min n (u32 (u32 (inode.size.toNat + 2 ^ 32 - offset) + fs.sectorSize - 1) /
          fs.sectorSize)) 0 [] with
    | none =>
      rw [hread] at h
      cases h
    | some result =>
      rw [hread] at h
      cases h
      exact List.take_prefix _ _

/-! ## The loop -/

variable {map : SectorMap} {size : UInt32} {ok : σ → Prop} {start bytes room : Nat}

/-- The bytes in front of the limit, in whole sectors. -/
def sectorRoom (fs : FsInfo σ) (start limit : Nat) : Nat :=
  (limit - start) / fs.sectorSize * fs.sectorSize

/-- What holds in front of an iteration: a first part of the file was read, and it lies from the
start on. -/
structure Loading (fs : FsInfo σ) (map : SectorMap) (size : UInt32) (ok : σ → Prop)
    (start bytes limit : Nat) (s : LoadState σ) : Prop where
  buf_eq : s.buf = start + s.data.length
  data_eq : s.data = (contents fs map size.toNat).take s.data.length
  left : s.data.length + s.bytes = bytes
  le_size : s.data.length ≤ size.toNat
  le_room : s.data.length ≤ sectorRoom fs start limit
  cached : Cached map size ok s.inode
  offset_eq : s.bytes ≠ 0 → s.offset = s.data.length
  boundary : s.bytes ≠ 0 → AtBoundary fs size s.data.length

/-- The room in front of the limit, behind what was read. -/
theorem sectorRoom_sub {d : Nat} (h : fs.sectorSize ∣ d) :
    sectorRoom fs (start + d) limit = sectorRoom fs start limit - d := by
  obtain ⟨k, rfl⟩ := h
  rw [sectorRoom, sectorRoom, Nat.sub_add_eq, Nat.sub_mul_div, Nat.sub_mul,
    Nat.mul_comm k fs.sectorSize]

theorem sectorRoom_le : sectorRoom fs start limit ≤ limit - start := Nat.div_mul_le_self _ _

/-- Where the next sector does not fit, there is no room. -/
theorem sectorRoom_zero (h : limit < start + fs.sectorSize) : sectorRoom fs start limit = 0 := by
  rw [sectorRoom, Nat.div_eq_of_lt (by have := fs.sectorSize_pos; omega), Nat.zero_mul]

/-- The chunk of an iteration is in the room. -/
theorem chunk_le_room (hbuf : s.buf ≤ limit) (hlimit : limit < 2 ^ 32) :
    s.chunk fs limit callback ≤ sectorRoom fs s.buf limit := by
  have hdiff : u32 (limit + 2 ^ 32 - s.buf) = limit - s.buf := by
    rw [u32]
    omega
  rw [LoadState.chunk, hdiff, ← sectorRoom]
  split_ifs <;> omega

/-- Nothing is asked for where there is no room. -/
theorem request_zero (h : s.chunk fs limit callback = 0) : s.request fs limit callback = 0 := by
  have hss := fs.sectorSize_pos
  have hlt := fs.sectorSize_lt
  rw [LoadState.request, h, Nat.zero_add, u32_of_lt (by omega)]
  exact Nat.div_eq_of_lt (by omega)

/-- The state behind a read. -/
def LoadState.after (s : LoadState σ) (got : Got σ) (chunk : Nat) : LoadState σ :=
  ⟨u32 (s.buf + min got.data.length chunk), s.bytes - min got.data.length chunk,
    got.haveMore.getD s.haveMore, got.inode, got.offset,
    s.data ++ got.data.take (min got.data.length chunk)⟩

theorem length_after (s : LoadState σ) (got : Got σ) (chunk : Nat) :
    (s.after got chunk).data.length = s.data.length + min got.data.length chunk := by
  rw [LoadState.after, List.length_append, List.length_take, Nat.min_eq_left (Nat.min_le_left _ _)]

/-- What an iteration does. -/
theorem loadStep_cases {callback : Bool} (s : LoadState σ) :
    (s.bytes = 0 ∧ loadStep fs fuel limit callback s = .stop (.none, s)) ∨
    (s.bytes ≠ 0 ∧ u32 (s.buf + fs.sectorSize) > limit ∧
      loadStep fs fuel limit callback s = .stop (.overflow, s)) ∨
    (s.bytes ≠ 0 ∧ u32 (s.buf + fs.sectorSize) ≤ limit ∧
      (genericGetfssec fs fuel s.inode s.offset (s.request fs limit callback) = none ∧
        loadStep fs fuel limit callback s = .hang ∨
      ∃ got, genericGetfssec fs fuel s.inode s.offset (s.request fs limit callback) = some got ∧
        loadStep fs fuel limit callback s =
          if (s.after got (s.chunk fs limit callback)).haveMore then
            .next (s.after got (s.chunk fs limit callback))
          else .stop (.carry, s.after got (s.chunk fs limit callback)))) := by
  rw [loadStep]
  by_cases hbytes : s.bytes = 0
  · exact Or.inl ⟨hbytes, if_pos hbytes⟩
  · by_cases hover : u32 (s.buf + fs.sectorSize) > limit
    · exact Or.inr (Or.inl ⟨hbytes, hover, by rw [if_neg hbytes, if_pos hover]⟩)
    · refine Or.inr (Or.inr ⟨hbytes, Nat.not_lt.mp hover, ?_⟩)
      rw [if_neg hbytes, if_neg hover]
      cases hgot : genericGetfssec fs fuel s.inode s.offset (s.request fs limit callback) with
      | none => exact Or.inl ⟨rfl, rfl⟩
      | some got => exact Or.inr ⟨got, rfl, rfl⟩

/-- The chunk of an iteration and the bytes of the sectors that it asks for: the chunk is in the
room, and the sectors are the chunk unless it takes all bytes that are left. -/
theorem Loading.amount (hshift : fs.sectorShift ≤ 20) (hlimit : limit < 2 ^ 32)
    (hstart : start ≤ limit) (h : Loading fs map size ok start bytes limit s) (hbytes : s.bytes ≠ 0) :
    s.chunk fs limit callback ≤ s.request fs limit callback * fs.sectorSize ∧
      (s.chunk fs limit callback ≠ s.bytes →
        s.request fs limit callback * fs.sectorSize = s.chunk fs limit callback) ∧
      s.data.length + min (size.toNat - s.data.length) (s.chunk fs limit callback) ≤
        sectorRoom fs start limit ∧
      (s.chunk fs limit callback = 0 → s.data.length < size.toNat →
        s.data.length = sectorRoom fs start limit) := by
  have hroomLe := @sectorRoom_le _ fs limit start
  have hbufEq := h.buf_eq
  have hleRoom := h.le_room
  have hchunkRoom := @chunk_le_room _ fs limit callback s (by omega) hlimit
  have hroomSub : fs.sectorSize ∣ s.data.length →
      sectorRoom fs s.buf limit = sectorRoom fs start limit - s.data.length := by
    intro hdvd
    rw [hbufEq, sectorRoom_sub hdvd]
  have hboundary := (h.boundary hbytes).2
  have hinRoom : s.data.length + min (size.toNat - s.data.length) (s.chunk fs limit callback) ≤
      sectorRoom fs start limit := by
    obtain hdvd | hend := hboundary
    · have hsub := hroomSub hdvd
      omega
    · omega
  by_cases hfits : s.buf + fs.sectorSize ≤ limit
  · obtain ⟨-, -, hpos⟩ := @chunk_spec _ fs limit callback s hshift hfits hlimit
    obtain ⟨hle, -, hexact⟩ := @request_spec _ fs limit callback s hshift hfits hlimit
    have hchunkPos := hpos (Nat.pos_of_ne_zero hbytes)
    exact ⟨hle, hexact, hinRoom, fun hzero => absurd hzero hchunkPos.ne'⟩
  · have hnoRoom := @sectorRoom_zero _ fs limit s.buf (by omega)
    have hchunk : s.chunk fs limit callback = 0 := by omega
    have hasked : s.request fs limit callback * fs.sectorSize = 0 := by
      rw [request_zero hchunk, Nat.zero_mul]
    refine ⟨by omega, fun _ => hasked.trans hchunk.symm, hinRoom, fun _ hlt => ?_⟩
    have hsub := hroomSub (hboundary.resolve_right (Nat.ne_of_lt hlt))
    omega

/-- What is in the state behind a read. -/
theorem after_spec {got : Got σ} {chunk asked : Nat}
    (hdata : got.data = ((contents fs map size.toNat).drop s.data.length).take asked)
    (hchunk : chunk ≤ asked) :
    (s.after got chunk).data.length =
        s.data.length + min (size.toNat - s.data.length) chunk ∧
      (s.after got chunk).bytes = s.bytes - min (size.toNat - s.data.length) chunk ∧
      (s.after got chunk).buf = u32 (s.buf + min (size.toNat - s.data.length) chunk) ∧
      (s.data = (contents fs map size.toNat).take s.data.length →
        (s.after got chunk).data =
          (contents fs map size.toNat).take (s.after got chunk).data.length) := by
  have hlength := congrArg List.length hdata
  rw [List.length_take, List.length_drop, length_contents] at hlength
  have hmin : min got.data.length chunk = min (size.toNat - s.data.length) chunk := by omega
  have hafter : (s.after got chunk).data.length =
      s.data.length + min (size.toNat - s.data.length) chunk := by
    rw [length_after, hmin]
  refine ⟨hafter, congrArg (s.bytes - ·) hmin, congrArg (fun m => u32 (s.buf + m)) hmin,
    fun hfront => ?_⟩
  have htake : min (min (size.toNat - s.data.length) chunk) asked =
      min (size.toNat - s.data.length) chunk := by omega
  rw [hafter, LoadState.after, hmin, hdata, List.take_take, htake, List.take_add, ← hfront]

/-- Where bytes are left behind a chunk, the sectors that were asked for end with it. -/
theorem end_of_read {size d chunk asked bytes : Nat} (hle : d ≤ size) (hchunk : chunk ≤ asked)
    (hexact : chunk ≠ bytes → asked = chunk) (hne : bytes - min (size - d) chunk ≠ 0) :
    min size (d + asked) = d + min (size - d) chunk := by
  by_cases hall : chunk = bytes
  · omega
  · rw [hexact hall]
    omega

/-- A read goes on with the file, in the room that there is. When it tells that nothing remains,
everything has been loaded that can be. -/
theorem Loading.read (himpl : Implements fs map size ok)
    (hsize : size.toNat + fs.sectorSize - 1 < 2 ^ 32) (hshift : fs.sectorShift ≤ 20)
    (hlimit : limit < 2 ^ 32) (hfuel : 2 ^ 33 ≤ fuel) (hstart : start ≤ limit)
    (h : Loading fs map size ok start bytes limit s) (hbytes : s.bytes ≠ 0) :
    ∃ got, genericGetfssec fs fuel s.inode s.offset (s.request fs limit callback) = some got ∧
      Loading fs map size ok start bytes limit (s.after got (s.chunk fs limit callback)) ∧
      ((s.after got (s.chunk fs limit callback)).haveMore = false →
        (s.after got (s.chunk fs limit callback)).data.length =
          min (min bytes size.toNat) (sectorRoom fs start limit)) := by
  have hroomLe := @sectorRoom_le _ fs limit start
  have hbufEq := h.buf_eq
  have hleSize := h.le_size
  have hleft := h.left
  have hoffset := h.offset_eq hbytes
  have hboundary := h.boundary hbytes
  have hchunkBytes := @chunk_le _ fs limit callback s
  obtain ⟨hchunkLe, hexact, hinRoom, hnoRoom⟩ :=
    @Loading.amount _ fs limit callback s _ _ _ _ _ hshift hlimit hstart h hbytes
  have hrequestLt : s.request fs limit callback < 2 ^ 32 :=
    Nat.lt_of_le_of_lt (Nat.div_le_self _ _) (Nat.mod_lt _ (Nat.two_pow_pos 32))
  obtain ⟨got, hgot, hcached, hgotOffset, hdata, -, hsome⟩ :=
    genericGetfssec_spec himpl hsize h.cached (hoffset ▸ hboundary)
      (show s.request fs limit callback + 2 ≤ fuel by omega)
  rw [hoffset] at hgotOffset hdata hsome
  have hnext := hboundary.next (s.request fs limit callback)
  have hpos : 0 < s.chunk fs limit callback → 0 < s.request fs limit callback := fun hchunk =>
    Nat.pos_of_mul_pos_right (Nat.lt_of_lt_of_le hchunk hchunkLe)
  refine ⟨got, hgot, ?_⟩
  generalize s.chunk fs limit callback = chunk at *
  generalize s.request fs limit callback * fs.sectorSize = asked at *
  obtain ⟨hafter, hafterBytes, hafterBuf, hafterData⟩ :=
    @after_spec _ fs s map size got chunk asked hdata hchunkLe
  -- as long as bytes are left, the file stands behind what was read
  have hstands : s.bytes - min (size.toNat - s.data.length) chunk ≠ 0 →
      min size.toNat (s.data.length + asked) =
        s.data.length + min (size.toNat - s.data.length) chunk :=
    end_of_read hleSize hchunkLe hexact
  have hbuf : (s.after got chunk).buf = start + (s.after got chunk).data.length := by
    have hword : s.buf + min (size.toNat - s.data.length) chunk < 2 ^ 32 := by
      rw [hbufEq, Nat.add_assoc]
      exact Nat.lt_of_le_of_lt (Nat.add_le_of_le_sub' hstart (hinRoom.trans hroomLe)) hlimit
    rw [hafterBuf, hafter, u32_of_lt hword, hbufEq, Nat.add_assoc]
  have hleft' : (s.after got chunk).data.length + (s.after got chunk).bytes = bytes := by
    have hmin := (Nat.min_le_right (size.toNat - s.data.length) chunk).trans hchunkBytes
    rw [hafter, hafterBytes, Nat.add_assoc, Nat.add_sub_of_le hmin]
    exact hleft
  have hleSize' : (s.after got chunk).data.length ≤ size.toNat := by
    rw [hafter]
    exact Nat.add_le_of_le_sub' hleSize (Nat.min_le_left _ _)
  have hoffset' : (s.after got chunk).bytes ≠ 0 →
      (s.after got chunk).offset = (s.after got chunk).data.length := by
    intro hne
    rw [hafterBytes] at hne
    rw [hafter, ← hstands hne]
    exact hgotOffset
  have hboundary' : (s.after got chunk).bytes ≠ 0 →
      AtBoundary fs size (s.after got chunk).data.length := by
    intro hne
    rw [hafterBytes] at hne
    rw [hafter, ← hstands hne]
    exact hnext
  refine ⟨⟨hbuf, hafterData h.data_eq, hleft', hleSize', hafter ▸ hinRoom, hcached, hoffset',
    hboundary'⟩, ?_⟩
  · intro hmore
    rw [hafter]
    obtain hend | hlt := Nat.eq_or_lt_of_le hleSize
    · omega
    · by_cases hzero : chunk = 0
      · have hroom := hnoRoom hzero hlt
        omega
      · have hgotMore : got.haveMore.getD s.haveMore = false := hmore
        rw [hsome hlt (hpos (Nat.pos_of_ne_zero hzero)), Option.getD_some,
          decide_eq_false_iff_not] at hgotMore
        by_cases hall : chunk = s.bytes
        · omega
        · have hmul := hexact hall
          omega

/-- The sectors that are asked for are in the room. -/
theorem request_le_room (hbuf : s.buf ≤ limit) (hlimit : limit < 2 ^ 32) :
    s.request fs limit callback * fs.sectorSize ≤ sectorRoom fs s.buf limit := by
  have hss := fs.sectorSize_pos
  have hchunk := @chunk_le_room _ fs limit callback s hbuf hlimit
  have hword := @chunk_add_le _ fs limit callback s
  rw [LoadState.request, u32_of_lt (by omega), sectorRoom]
  rw [sectorRoom] at hchunk
  refine Nat.mul_le_mul_right _ (Nat.lt_succ_iff.mp ((Nat.div_lt_iff_lt_mul hss).mpr ?_))
  rw [Nat.succ_mul]
  omega

/-- The stores of an iteration do not wrap. -/
theorem stores_eq (hbytes : s.bytes ≠ 0) (hfits : u32 (s.buf + fs.sectorSize) ≤ limit)
    (hbuf : s.buf ≤ limit) (hlimit : limit < 2 ^ 32) :
    s.stores fs fuel limit callback =
      storesAt s.buf (readBuffer fs fuel s.inode s.offset (s.request fs limit callback)) := by
  have hrequest := @request_le_room _ fs limit callback s hbuf hlimit
  have hroomBuf := @sectorRoom_le _ fs limit s.buf
  have hlength := @length_readBuffer_le _ fs fuel s.inode s.offset (s.request fs limit callback)
  rw [LoadState.stores, if_neg hbytes, if_neg (Nat.not_lt.mpr hfits)]
  exact storesFrom_eq (by omega)

/-- What lies in memory behind a read. -/
theorem putAll_storesAt_front {mem : Nat → UInt8} {buf i : Nat} {b : UInt8}
    {data buffer : List UInt8} (h : data <+: buffer) (hi : data[i]? = some b) :
    putAll mem (storesAt buf buffer) (buf + i) = b := by
  obtain ⟨rest, rfl⟩ := h
  rw [putAll_storesAt]
  refine repMovsbFrom_holds (data ++ rest) buf i b ?_
  rw [List.getElem?_append_left (List.getElem?_eq_some_iff.mp hi).1]
  exact hi

/-- The stores of an iteration are in the room. -/
theorem mem_stores (hbytes : s.bytes ≠ 0) (hfits : u32 (s.buf + fs.sectorSize) ≤ limit)
    (hbuf : s.buf ≤ limit) (hlimit : limit < 2 ^ 32) {x : Nat × UInt8}
    (hx : x ∈ s.stores fs fuel limit callback) : s.buf ≤ x.1 ∧ x.1 < limit := by
  have hrequest := @request_le_room _ fs limit callback s hbuf hlimit
  have hroomBuf := @sectorRoom_le _ fs limit s.buf
  have hlength := @length_readBuffer_le _ fs fuel s.inode s.offset (s.request fs limit callback)
  rw [stores_eq hbytes hfits hbuf hlimit] at hx
  have hrange := mem_storesAt hx
  omega

/-- A byte of the file that lies behind what was read is one of the next read. -/
theorem Loading.byte_of_read {got : Got σ} {chunk i : Nat} {b : UInt8}
    (h : Loading fs map size ok start bytes limit (s.after got chunk))
    (hi : s.data.length + i < (s.after got chunk).data.length)
    (hb : (contents fs map size.toNat)[s.data.length + i]? = some b) : got.data[i]? = some b := by
  have hdata : (s.after got chunk).data = s.data ++ got.data.take (min got.data.length chunk) := rfl
  have hlength := length_after s got chunk
  have hafterByte : (s.after got chunk).data[s.data.length + i]? = some b := by
    rw [h.data_eq, List.getElem?_take, if_pos hi]
    exact hb
  rw [hdata, List.getElem?_append_right (Nat.le_add_right _ _), Nat.add_sub_cancel_left,
    List.getElem?_take, if_pos (by omega)] at hafterByte
  exact hafterByte

/-- The bytes of a read are in memory, whatever is stored behind them. -/
theorem Loading.holds_read {got : Got σ} {chunk : Nat}
    (hgot : genericGetfssec fs fuel s.inode s.offset (s.request fs limit callback) = some got)
    (hstores : s.stores fs fuel limit callback =
      storesAt s.buf (readBuffer fs fuel s.inode s.offset (s.request fs limit callback)))
    (h : Loading fs map size ok start bytes limit s)
    (hafter : Loading fs map size ok start bytes limit (s.after got chunk))
    {stores : List (Nat × UInt8)} (hbehind : ∀ x ∈ stores, (s.after got chunk).buf ≤ x.1)
    (mem : Nat → UInt8) {i : Nat} {b : UInt8}
    (hi : s.data.length + i < (s.after got chunk).data.length)
    (hb : (contents fs map size.toNat)[s.data.length + i]? = some b) :
    putAll mem (s.stores fs fuel limit callback ++ stores) (s.buf + i) = b := by
  have hbuf := h.buf_eq
  have hbuf' := hafter.buf_eq
  have hother : ∀ x ∈ stores, x.1 ≠ s.buf + i := by
    intro x hx
    have hle := hbehind x hx
    omega
  rw [putAll_append, putAll_of_ne hother, hstores]
  exact putAll_storesAt_front (data_front hgot) (hafter.byte_of_read hi hb)

/-- When the loop ends, everything has been loaded that can be, from the start on. All stores are in
front of the limit. -/
theorem Loading.loop (himpl : Implements fs map size ok)
    (hsize : size.toNat + fs.sectorSize - 1 < 2 ^ 32) (hshift : fs.sectorShift ≤ 20)
    (hlimit : limit < 2 ^ 32) (hfuel : 2 ^ 33 ≤ fuel) (hstart : start ≤ limit) (n : Nat)
    (h : Loading fs map size ok start bytes limit s)
    (hrun : runLoop (loadStep fs fuel limit callback) n s = some (flag, t)) :
    t.buf = start + min (min bytes size.toNat) (sectorRoom fs start limit) ∧
      (∀ x ∈ loopStores fs fuel limit callback n s, s.buf ≤ x.1 ∧ x.1 < limit) ∧
      ∀ mem i b, s.data.length + i < min (min bytes size.toNat) (sectorRoom fs start limit) →
        (contents fs map size.toNat)[s.data.length + i]? = some b →
        putAll mem (loopStores fs fuel limit callback n s) (s.buf + i) = b := by
  induction n generalizing s with
  | zero => cases hrun
  | succ n ih =>
    have hroomLe := @sectorRoom_le _ fs limit start
    have hleRoom := h.le_room
    have hleSize := h.le_size
    have hleft := h.left
    have hbufEq := h.buf_eq
    obtain ⟨hbytes, hstep⟩ | ⟨hbytes, hover, hstep⟩ | ⟨hbytes, hfits, hread⟩ :=
      @loadStep_cases _ fs fuel limit callback s
    · -- all bytes that were asked for are loaded
      rw [runLoop, hstep] at hrun
      obtain ⟨-, rfl⟩ := Prod.mk.inj (Option.some.inj hrun)
      rw [loopStores, hstep, LoadState.stores, if_pos hbytes]
      exact ⟨by omega, fun x hx => absurd hx List.not_mem_nil, fun mem i b hi => by omega⟩
    · -- there is no room for another sector
      have hnoRoom : sectorRoom fs s.buf limit = 0 := by
        refine sectorRoom_zero ?_
        rw [u32] at hover
        have hlt := fs.sectorSize_lt
        omega
      have hall : s.data.length = min (min bytes size.toNat) (sectorRoom fs start limit) := by
        obtain hdvd | hend := (h.boundary hbytes).2
        · rw [hbufEq, sectorRoom_sub hdvd] at hnoRoom
          omega
        · omega
      rw [runLoop, hstep] at hrun
      obtain ⟨-, rfl⟩ := Prod.mk.inj (Option.some.inj hrun)
      rw [loopStores, hstep, LoadState.stores, if_neg hbytes, if_pos hover]
      exact ⟨by omega, fun x hx => absurd hx List.not_mem_nil, fun mem i b hi => by omega⟩
    · obtain ⟨got, hgot, hafter, hdone⟩ :=
        @Loading.read _ fs fuel limit callback _ _ _ _ _ _ himpl hsize hshift hlimit hfuel hstart h
          hbytes
      obtain ⟨hnone, -⟩ | ⟨got', hgot', hstep⟩ := hread
      · rw [hnone] at hgot
        cases hgot
      rw [hgot] at hgot'
      obtain rfl := Option.some.inj hgot'
      have hbufLe : s.buf ≤ limit := by omega
      have hstores := @stores_eq _ fs fuel limit callback s hbytes hfits hbufLe hlimit
      have hbuf' := hafter.buf_eq
      have hgrows := length_after s got (s.chunk fs limit callback)
      rw [runLoop, hstep] at hrun
      rw [loopStores, hstep]
      cases hmore : (s.after got (s.chunk fs limit callback)).haveMore with
      | true =>
        rw [hmore, if_pos rfl] at hrun
        rw [if_pos rfl]
        obtain ⟨htbuf, hrest, hmem⟩ := ih hafter hrun
        refine ⟨htbuf, fun x hx => ?_, fun mem i b hi hb => ?_⟩
        · obtain hx | hx := List.mem_append.mp hx
          · exact mem_stores hbytes hfits hbufLe hlimit hx
          · have hlater := hrest x hx
            omega
        · by_cases hnow : s.data.length + i <
              (s.after got (s.chunk fs limit callback)).data.length
          · exact Loading.holds_read hgot hstores h hafter (fun x hx => (hrest x hx).1) mem hnow hb
          · obtain ⟨j, hj⟩ := Nat.exists_eq_add_of_le (Nat.le_of_not_lt hnow)
            have hplace : s.buf + i = (s.after got (s.chunk fs limit callback)).buf + j := by omega
            rw [hj] at hi hb
            rw [putAll_append, hplace]
            exact hmem _ j b hi hb
      | false =>
        rw [hmore, if_neg Bool.false_ne_true] at hrun
        obtain ⟨-, rfl⟩ := Prod.mk.inj (Option.some.inj hrun)
        have hall := hdone hmore
        rw [if_neg Bool.false_ne_true, List.append_nil]
        refine ⟨hbuf'.trans (congrArg _ hall),
          fun x hx => mem_stores hbytes hfits hbufLe hlimit hx, fun mem i b hi hb => ?_⟩
        rw [← hall] at hi
        have hbyte := Loading.holds_read hgot hstores h hafter
          (fun x hx => absurd hx List.not_mem_nil) mem hi hb
        rw [List.append_nil] at hbyte
        exact hbyte

end Liigboot.Fs
