import Liigboot.Fs.LoadPadding

/-!
# Loading the rest of a file

`pm_load_high` may start behind what was read of a file before. Its loop does not look at what it
has loaded, so that it does what the loop does that loads the whole file and has come as far.
-/

namespace Liigboot.Fs

variable {σ : Type} {fs : FsInfo σ} {fuel limit start bytes n offset : Nat} {callback : Bool}
  {s t : LoadState σ} {flag : LoadFlag} {map : SectorMap} {size : UInt32} {ok : σ → Prop}
  {regs : LoadRegs} {inode : Inode σ} {garbage : Bool}

/-! ## What was loaded before -/

/-- A state with some bytes that were loaded before. -/
def LoadState.prepend (d : List UInt8) (s : LoadState σ) : LoadState σ :=
  { s with data := d ++ s.data }

/-- An iteration does not look at what was loaded before. -/
theorem loadStep_prepend (d : List UInt8) (s : LoadState σ) :
    loadStep fs fuel limit callback (s.prepend d) =
      match loadStep fs fuel limit callback s with
      | .next t => .next (t.prepend d)
      | .stop (flag, t) => .stop (flag, t.prepend d)
      | .hang => .hang := by
  have hbuf : (s.prepend d).buf = s.buf := rfl
  have hbytes : (s.prepend d).bytes = s.bytes := rfl
  have hinode : (s.prepend d).inode = s.inode := rfl
  have hoffset : (s.prepend d).offset = s.offset := rfl
  have hmore : (s.prepend d).haveMore = s.haveMore := rfl
  have hdata : (s.prepend d).data = d ++ s.data := rfl
  have hchunk : (s.prepend d).chunk fs limit callback = s.chunk fs limit callback := rfl
  have hrequest : (s.prepend d).request fs limit callback = s.request fs limit callback := rfl
  rw [loadStep, loadStep, hbuf, hbytes, hinode, hoffset, hrequest]
  by_cases hzero : s.bytes = 0
  · rw [if_pos hzero, if_pos hzero]
  · rw [if_neg hzero, if_neg hzero]
    by_cases hover : u32 (s.buf + fs.sectorSize) > limit
    · rw [if_pos hover, if_pos hover]
    · rw [if_neg hover, if_neg hover]
      cases genericGetfssec fs fuel s.inode s.offset (s.request fs limit callback) with
      | none => rfl
      | some got =>
        dsimp only
        rw [hmore, hdata, hchunk, List.append_assoc]
        split_ifs
        · rfl
        · rfl

/-- What was loaded before does not change how the loop goes. -/
theorem runLoop_prepend (d : List UInt8) (n : Nat) (s : LoadState σ) :
    runLoop (loadStep fs fuel limit callback) n (s.prepend d) =
      (runLoop (loadStep fs fuel limit callback) n s).map fun (flag, t) => (flag, t.prepend d) := by
  induction n generalizing s with
  | zero => rfl
  | succ n ih =>
    rw [runLoop, runLoop, loadStep_prepend]
    cases loadStep fs fuel limit callback s with
    | next t => exact ih t
    | stop result => rfl
    | hang => rfl

/-- What was loaded before does not change where the loop stores. -/
theorem loopStores_prepend (d : List UInt8) (n : Nat) (s : LoadState σ) :
    loopStores fs fuel limit callback n (s.prepend d) =
      loopStores fs fuel limit callback n s := by
  induction n generalizing s with
  | zero => rfl
  | succ n ih =>
    have hstores : (s.prepend d).stores fs fuel limit callback =
        s.stores fs fuel limit callback := rfl
    rw [loopStores, loopStores, loadStep_prepend, hstores]
    cases loadStep fs fuel limit callback s with
    | next t => exact congrArg _ (ih t)
    | stop result => rfl
    | hang => rfl

/-- The start of a load of the rest of a file, behind the bytes in front of it. -/
def restInit (fs : FsInfo σ) (map : SectorMap) (size : UInt32) (regs : LoadRegs) (inode : Inode σ)
    (offset : Nat) (garbage : Bool) : LoadState σ :=
  (loadInit regs inode offset garbage).prepend ((contents fs map size.toNat).take offset)

theorem length_restInit (hle : offset ≤ size.toNat) :
    (restInit fs map size regs inode offset garbage).data.length = offset := by
  rw [restInit, LoadState.prepend, loadInit, List.append_nil, List.length_take, length_contents]
  exact Nat.min_eq_left hle

/-- The load of the rest starts in the loop's invariant. -/
theorem loading_rest (hcached : Cached map size ok inode) (hoff : AtBoundary fs size offset)
    (hedi : offset ≤ regs.edi.toNat)
    (hroom : offset ≤ sectorRoom fs (regs.edi.toNat - offset) limit) :
    Loading fs map size ok (regs.edi.toNat - offset) (offset + regs.eax.toNat) limit
      (restInit fs map size regs inode offset garbage) := by
  have hlength := @length_restInit _ fs offset map size regs inode garbage hoff.1
  refine ⟨?_, ?_, ?_, ?_, ?_, hcached, fun _ => ?_, fun _ => ?_⟩
  · rw [hlength]
    exact (Nat.sub_add_cancel hedi).symm
  · rw [hlength]
    exact List.append_nil _
  · rw [hlength]
    rfl
  · rw [hlength]
    exact hoff.1
  · rw [hlength]
    exact hroom
  · rw [hlength]
    rfl
  · rw [hlength]
    exact hoff

/-- The bytes in front of the rest are in the room. -/
theorem le_sectorRoom (hdvd : fs.sectorSize ∣ offset) (hedi : offset ≤ regs.edi.toNat)
    (hlimit : regs.edi.toNat ≤ limit) :
    offset ≤ sectorRoom fs (regs.edi.toNat - offset) limit := by
  obtain ⟨q, rfl⟩ := hdvd
  rw [sectorRoom, Nat.mul_comm]
  refine Nat.mul_le_mul_right _ ((Nat.le_div_iff_mul_le fs.sectorSize_pos).mpr ?_)
  rw [Nat.mul_comm]
  omega

/-- A load that does not end for want of memory has room for a sector. -/
theorem loadInit_fits (heax : 0 < regs.eax.toNat)
    (hroom : regs.edi.toNat + fs.sectorSize < 2 ^ 32)
    (hrun : runLoop (loadStep fs fuel limit callback) n (loadInit regs inode offset garbage) =
      some (flag, t)) (hflag : flag ≠ .overflow) : regs.edi.toNat + fs.sectorSize ≤ limit := by
  have hbuf : u32 ((loadInit regs inode offset garbage).buf + fs.sectorSize) =
      regs.edi.toNat + fs.sectorSize := u32_of_lt hroom
  cases n with
  | zero => exact nomatch hrun
  | succ n =>
    rw [runLoop] at hrun
    obtain ⟨hbytes, -⟩ | ⟨-, -, hstep⟩ | ⟨-, hfits, -⟩ :=
      @loadStep_cases _ fs fuel limit callback (loadInit regs inode offset garbage)
    · exact absurd hbytes heax.ne'
    · rw [hstep] at hrun
      exact absurd (Prod.mk.inj (Option.some.inj hrun)).1.symm hflag
    · rwa [hbuf] at hfits

/-! ## The end of the file -/

/-- What is left of a file takes up the sectors that are left of it. -/
theorem sectorsOf_sub (h : fs.sectorSize ∣ offset) (hle : offset ≤ size.toNat) :
    offset + fs.sectorsOf (size.toNat - offset) * fs.sectorSize =
      fs.sectorsOf size.toNat * fs.sectorSize := by
  have hss := fs.sectorSize_pos
  obtain ⟨q, rfl⟩ := h
  have hsplit : size.toNat + fs.sectorSize - 1 =
      size.toNat - fs.sectorSize * q + fs.sectorSize - 1 + fs.sectorSize * q := by omega
  rw [FsInfo.sectorsOf, FsInfo.sectorsOf, hsplit, Nat.add_mul_div_left _ _ hss, Nat.add_mul,
    Nat.mul_comm q, Nat.add_comm]

/-- A read stores no more than the sectors that are left of the file. -/
theorem length_readBuffer_left (hsize : size.toNat + fs.sectorSize - 1 < 2 ^ 32)
    (hinode : inode.size = size) (hle : offset ≤ size.toNat) :
    (readBuffer fs fuel inode offset n).length ≤
      fs.sectorsOf (size.toNat - offset) * fs.sectorSize := by
  have hs := size.toNat_lt
  have hleft : u32 (size.toNat + 2 ^ 32 - offset) = size.toNat - offset := by
    rw [u32]
    omega
  have hround : u32 (size.toNat - offset + fs.sectorSize - 1) =
      size.toNat - offset + fs.sectorSize - 1 := u32_of_lt (by omega)
  rw [readBuffer, hinode, hleft, hround, ← FsInfo.sectorsOf]
  split_ifs
  · exact Nat.zero_le _
  · split
    · exact Nat.zero_le _
    · rename_i hread
      refine (length_readLoop_le hread).trans ?_
      rw [List.length_nil, Nat.zero_add]
      exact Nat.mul_le_mul_right _ (Nat.min_le_right _ _)

/-- No store is behind the last sector of the file. -/
theorem Loading.stores_lt (himpl : Implements fs map size ok)
    (hsize : size.toNat + fs.sectorSize - 1 < 2 ^ 32) (hshift : fs.sectorShift ≤ 20)
    (hlimit : limit < 2 ^ 32) (hfuel : 2 ^ 33 ≤ fuel) (hstart : start ≤ limit) (n : Nat)
    (h : Loading fs map size ok start bytes limit s) :
    ∀ x ∈ loopStores fs fuel limit callback n s,
      x.1 < start + fs.sectorsOf size.toNat * fs.sectorSize := by
  induction n generalizing s with
  | zero => exact fun x hx => absurd hx List.not_mem_nil
  | succ n ih =>
    have hroomLe := @sectorRoom_le _ fs limit start
    have hleRoom := h.le_room
    have hbufEq := h.buf_eq
    unfold loopStores
    obtain ⟨hbytes, hstep⟩ | ⟨hbytes, hover, hstep⟩ | ⟨hbytes, hfits, hread⟩ :=
      @loadStep_cases _ fs fuel limit callback s
    · unfold LoadState.stores
      rw [hstep, if_pos hbytes]
      exact fun x hx => absurd hx List.not_mem_nil
    · unfold LoadState.stores
      rw [hstep, if_neg hbytes, if_pos hover]
      exact fun x hx => absurd hx List.not_mem_nil
    · obtain ⟨got, hgot, hafter, -⟩ :=
        @Loading.read _ fs fuel limit callback _ _ _ _ _ _ himpl hsize hshift hlimit hfuel hstart h
          hbytes
      have hnow : ∀ x ∈ s.stores fs fuel limit callback,
          x.1 < start + fs.sectorsOf size.toNat * fs.sectorSize := by
        intro x hx
        rw [stores_eq hbytes hfits (by omega) hlimit, h.offset_eq hbytes] at hx
        have hrange := mem_storesAt hx
        have hlength := @length_readBuffer_left _ fs fuel (s.request fs limit callback)
          s.data.length size s.inode hsize h.cached.size_eq h.le_size
        obtain hdvd | hend := (h.boundary hbytes).2
        · have hsectors := @sectorsOf_sub _ fs s.data.length size hdvd h.le_size
          omega
        · have hnone : fs.sectorsOf (size.toNat - s.data.length) = 0 := by
            unfold FsInfo.sectorsOf
            rw [hend, Nat.sub_self]
            exact Nat.div_eq_of_lt (by have := fs.sectorSize_pos; omega)
          rw [hnone] at hlength
          omega
      intro x hx
      obtain hx | hx := List.mem_append.mp hx
      · exact hnow x hx
      · obtain ⟨hnone, -⟩ | ⟨got', hgot', hstep⟩ := hread
        · rw [hnone] at hgot
          cases hgot
        · obtain rfl := Option.some.inj (hgot.symm.trans hgot')
          rw [hstep] at hx
          split_ifs at hx
          · exact ih hafter x hx
          · exact absurd hx List.not_mem_nil

/-- The loop ends, and there is room for the whole file if its sectors lie in front of the limit. -/
theorem Loading.ends (himpl : Implements fs map size ok)
    (hsize : size.toNat + fs.sectorSize - 1 < 2 ^ 32) (hshift : fs.sectorShift ≤ 20)
    (hlimit : limit + fs.sectorSize < 2 ^ 32) (hfuel : 2 ^ 33 ≤ fuel) (hstart : start ≤ limit)
    (n : Nat) (h : Loading fs map size ok start bytes limit s)
    (hmore : s.bytes = 0 ∨ s.data.length < size.toNat) (hn : size.toNat - s.data.length < n) :
    ∃ flag t, runLoop (loadStep fs fuel limit callback) n s = some (flag, t) ∧
      (start + fs.sectorsOf size.toNat * fs.sectorSize ≤ limit → flag ≠ .overflow) := by
  induction n generalizing s with
  | zero => exact absurd hn (Nat.not_lt_zero _)
  | succ n ih =>
    have hss := fs.sectorSize_pos
    have hroomLe := @sectorRoom_le _ fs limit start
    have hleRoom := h.le_room
    have hbufEq := h.buf_eq
    have hbufLt : u32 (s.buf + fs.sectorSize) = s.buf + fs.sectorSize := u32_of_lt (by omega)
    unfold runLoop
    obtain ⟨hbytes, hstep⟩ | ⟨hbytes, hover, hstep⟩ | ⟨hbytes, hfits, hread⟩ :=
      @loadStep_cases _ fs fuel limit callback s
    · rw [hstep]
      exact ⟨_, _, rfl, fun _ h => by cases h⟩
    · rw [hstep]
      refine ⟨_, _, rfl, fun hroom => ?_⟩
      -- the next sector of the file does not fit
      have hlt := hmore.resolve_left hbytes
      have hdvd := (h.boundary hbytes).2.resolve_right hlt.ne
      have hsectors := @sectorsOf_sub _ fs s.data.length size hdvd hlt.le
      have hone : 1 ≤ fs.sectorsOf (size.toNat - s.data.length) :=
        (Nat.one_le_div_iff hss).mpr (by omega)
      have hmul := Nat.mul_le_mul_right fs.sectorSize hone
      omega
    · have hlt := hmore.resolve_left hbytes
      obtain ⟨got, hgot, hafter, -⟩ :=
        @Loading.read _ fs fuel limit callback _ _ _ _ _ _ himpl hsize hshift (by omega) hfuel
          hstart h hbytes
      obtain ⟨hnone, -⟩ | ⟨got', hgot', hstep⟩ := hread
      · rw [hnone] at hgot
        cases hgot
      obtain rfl := Option.some.inj (hgot.symm.trans hgot')
      rw [hstep]
      cases hhave : (s.after got (s.chunk fs limit callback)).haveMore with
      | false =>
        rw [if_neg Bool.false_ne_true]
        exact ⟨_, _, rfl, fun _ h => by cases h⟩
      | true =>
        rw [if_pos rfl]
        obtain ⟨-, -, hpos⟩ := @chunk_spec _ fs limit callback s hshift (by omega) (by omega)
        obtain ⟨hrequest, hrequestLt, -⟩ :=
          @request_spec _ fs limit callback s hshift (by omega) (by omega)
        have hchunk := hpos (Nat.pos_of_ne_zero hbytes)
        have hasked : 0 < s.request fs limit callback :=
          Nat.pos_of_mul_pos_right (hchunk.trans_le hrequest)
        have hoffset := h.offset_eq hbytes
        obtain ⟨got', hgot', -, -, hdata, -, hsome⟩ :=
          genericGetfssec_spec himpl hsize h.cached (hoffset ▸ h.boundary hbytes)
            (show s.request fs limit callback + 2 ≤ fuel by omega)
        obtain rfl := Option.some.inj (hgot.symm.trans hgot')
        rw [hoffset] at hdata hsome
        obtain ⟨hgrows, -⟩ := @after_spec _ fs s map size got _ _ hdata hrequest
        refine ih hafter ?_ (by omega)
        -- more is left, so that the file goes on behind what was loaded
        by_cases hzero : (s.after got (s.chunk fs limit callback)).bytes = 0
        · exact Or.inl hzero
        · have hgotMore : got.haveMore.getD s.haveMore = true := hhave
          rw [hsome hlt hasked, Option.getD_some, decide_eq_true_eq] at hgotMore
          exact Or.inr ((hafter.offset_eq hzero).symm ▸ hgotMore)

/-! ## The rest in memory -/

/-- The padding behind a load. -/
def Loaded.pad (loaded : Loaded σ) (regs : LoadRegs) : Nat :=
  (loaded.ebx &&& regs.dx.toUInt32).toNat

variable {iterations : Nat} {loaded : Loaded σ}

/-- What is in memory behind a load of the rest of a file, if memory did not end. -/
structure RestLoaded (fs : FsInfo σ) (map : SectorMap) (size : UInt32) (offset : Nat)
    (regs : LoadRegs) (loaded : Loaded σ) (mem mem' : Nat → UInt8) : Prop where
  bytes : ∀ i b, (contents fs map size.toNat)[offset + i]? = some b →
    mem' (regs.edi.toNat + i) = b
  padding : ∀ a, loaded.ebx.toNat ≤ a → a < loaded.ebx.toNat + loaded.pad regs → mem' a = 0
  front : ∀ a, a < regs.edi.toNat → mem' a = mem a
  /-- The last sector is stored as a whole. -/
  behind : ∀ a, loaded.ebx.toNat + loaded.pad regs ≤ a →
    regs.edi.toNat + fs.sectorsOf size.toNat * fs.sectorSize ≤ a + offset → mem' a = mem a

/-- The padding is less than 64 KiB. -/
theorem Loaded.pad_le (loaded : Loaded σ) (regs : LoadRegs) : loaded.pad regs ≤ 0xFFFF := by
  have hdx := regs.dx.toNat_lt
  rw [Loaded.pad, UInt32.toNat_and]
  refine Nat.and_le_right.trans ?_
  rw [UInt16.toNat_toUInt32]
  omega

/-- The padding is stored behind what was loaded. -/
theorem padStores_eq {regs : LoadRegs} (hebx : loaded.ebx = UInt32.ofNat loaded.state.buf)
    (hbuf : loaded.state.buf + 0xFFFF < 2 ^ 32) :
    padStores regs loaded =
      storesAt loaded.state.buf (List.replicate (loaded.pad regs) 0) := by
  have hpad := loaded.pad_le regs
  rw [Loaded.pad, hebx] at hpad ⊢
  rw [padStores, storesFrom_eq]
  rw [List.length_replicate]
  omega

/-- Zeros are stored from their start on, as many as they are. -/
theorem mem_zeros {start len : Nat} {x : Nat × UInt8}
    (hx : x ∈ storesAt start (List.replicate len 0)) : start ≤ x.1 ∧ x.1 < start + len := by
  have hrange := mem_storesAt hx
  rwa [List.length_replicate] at hrange

/-- The loop of a load of the rest of a file ends behind the file, and what it stores are the
sectors of the rest. -/
theorem loop_rest {t : LoadState σ} {flag : LoadFlag} (himpl : Implements fs map size ok)
    (hsize : size.toNat + fs.sectorSize - 1 < 2 ^ 32) (hshift : fs.sectorShift ≤ 15)
    (hcached : Cached map size ok inode) (hdvd : fs.sectorSize ∣ offset)
    (hlt : offset < size.toNat) (hedi : offset ≤ regs.edi.toNat)
    (hroom : regs.edi.toNat + fs.sectorSize < 2 ^ 32) (hlimit : regs.limit ≤ 0xFFFF0000)
    (heax : size.toNat - offset ≤ regs.eax.toNat) (hfuel : 2 ^ 33 ≤ fuel)
    (hrun : runLoop (loadStep fs fuel regs.limit (regs.bx ≠ 0)) iterations
      (loadInit regs inode offset garbage) = some (flag, t)) (hflag : flag ≠ .overflow) :
    t.buf = regs.edi.toNat + (size.toNat - offset) ∧ t.buf ≤ regs.limit ∧
      (∀ x ∈ loopStores fs fuel regs.limit (regs.bx ≠ 0) iterations
          (loadInit regs inode offset garbage),
        regs.edi.toNat ≤ x.1 ∧
          x.1 + offset < regs.edi.toNat + fs.sectorsOf size.toNat * fs.sectorSize) ∧
      ∀ mem i b, (contents fs map size.toNat)[offset + i]? = some b →
        putAll mem (loopStores fs fuel regs.limit (regs.bx ≠ 0) iterations
          (loadInit regs inode offset garbage)) (regs.edi.toNat + i) = b := by
  have hss := Nat.pow_le_pow_right (show 0 < 2 by decide) hshift
  change fs.sectorSize ≤ 2 ^ 15 at hss
  have hboundary : AtBoundary fs size offset := ⟨hlt.le, Or.inl hdvd⟩
  obtain ⟨hbuf, hbufLe⟩ := loadStep_loads himpl hsize (by omega) (by omega) hfuel iterations hcached
    hboundary hroom hrun hflag
  change t.buf = regs.edi.toNat + min regs.eax.toNat (size.toNat - offset) at hbuf
  change t.buf ≤ max regs.edi.toNat regs.limit at hbufLe
  rw [Nat.min_eq_right heax] at hbuf
  have hfits := loadInit_fits (by omega) hroom hrun hflag
  -- the same loop, as one that loads the whole file
  have hsplit : regs.edi.toNat - offset + offset = regs.edi.toNat := Nat.sub_add_cancel hedi
  have hbefore := @le_sectorRoom _ fs regs.limit offset regs hdvd hedi (by omega)
  have hloading := @loading_rest _ fs regs.limit offset map size ok regs inode garbage hcached
    hboundary hedi hbefore
  have hlength := @length_restInit _ fs offset map size regs inode garbage hlt.le
  have hstores := @loopStores_prepend _ fs fuel regs.limit (regs.bx ≠ 0)
    ((contents fs map size.toNat).take offset) iterations (loadInit regs inode offset garbage)
  have hrunRest := @runLoop_prepend _ fs fuel regs.limit (regs.bx ≠ 0)
    ((contents fs map size.toNat).take offset) iterations (loadInit regs inode offset garbage)
  rw [hrun, Option.map_some] at hrunRest
  rw [← restInit] at hstores hrunRest
  obtain ⟨hend, hinside, hbytes⟩ := hloading.loop himpl hsize (by omega) (by omega) hfuel (by omega)
    iterations hrunRest
  have hlast : ∀ x ∈ loopStores fs fuel regs.limit (regs.bx ≠ 0) iterations
      (restInit fs map size regs inode offset garbage),
      x.1 < regs.edi.toNat - offset + fs.sectorsOf size.toNat * fs.sectorSize :=
    hloading.stores_lt himpl hsize (by omega) (by omega) hfuel (by omega) iterations
  rw [hstores] at hinside hbytes hlast
  rw [hlength] at hbytes
  change t.buf = _ at hend
  have hall : min (min (offset + regs.eax.toNat) size.toNat)
      (sectorRoom fs (regs.edi.toNat - offset) regs.limit) = size.toNat := by omega
  rw [hall] at hbytes
  have hstart : (restInit fs map size regs inode offset garbage).buf = regs.edi.toNat := rfl
  rw [hstart] at hinside hbytes
  refine ⟨hbuf, by omega, fun x hx => ⟨(hinside x hx).1, ?_⟩, fun mem i b hb => ?_⟩
  · have hend := hlast x hx
    omega
  · have hi := (List.getElem?_eq_some_iff.mp hb).1
    rw [length_contents] at hi
    exact hbytes mem i b hi hb

/-- The rest of a file is loaded behind its first part. -/
theorem pmLoadHigh_rest (himpl : Implements fs map size ok)
    (hsize : size.toNat + fs.sectorSize - 1 < 2 ^ 32) (hshift : fs.sectorShift ≤ 15)
    (hcached : Cached map size ok inode) (hdvd : fs.sectorSize ∣ offset)
    (hlt : offset < size.toNat) (hedi : offset ≤ regs.edi.toNat)
    (hroom : regs.edi.toNat + fs.sectorSize < 2 ^ 32) (hmem : regs.ebp.toNat ≤ 0xFFFF0000)
    (heax : size.toNat - offset ≤ regs.eax.toNat) (hfuel : 2 ^ 33 ≤ fuel)
    (h : pmLoadHigh fs fuel iterations regs inode offset garbage = some loaded)
    (hflag : loaded.flag ≠ .overflow) (mem : Nat → UInt8) :
    RestLoaded fs map size offset regs loaded mem
      (putAll mem (pmLoadHighStores fs fuel iterations regs inode offset garbage loaded)) := by
  rw [pmLoadHigh] at h
  obtain ⟨⟨flag, t⟩, hrun, rfl⟩ := Option.map_eq_some_iff.mp h
  have hlimit : regs.limit ≤ regs.ebp.toNat := by
    rw [LoadRegs.limit, UInt32.toNat_and]
    exact Nat.and_le_left
  obtain ⟨hbuf, hbufLe, hinside, hbytes⟩ := loop_rest himpl hsize hshift hcached hdvd hlt hedi hroom
    (by omega) heax hfuel hrun hflag
  have hebx : (UInt32.ofNat t.buf).toNat = t.buf :=
    UInt32.toNat_ofNat_of_lt' (show t.buf < 2 ^ 32 by omega)
  dsimp only
  generalize hloaded : (⟨UInt32.ofNat t.buf, _, flag, t⟩ : Loaded σ) = loaded
  have hstate : loaded.state = t := hloaded ▸ rfl
  have hebxEq : loaded.ebx = UInt32.ofNat t.buf := hloaded ▸ rfl
  have hpad := @padStores_eq _ loaded regs (by rw [hebxEq, hstate]) (by rw [hstate]; omega)
  rw [hstate] at hpad
  rw [← hebxEq] at hebx
  rw [pmLoadHighStores, hpad, putAll_append]
  refine ⟨fun i b hb => ?_, fun a hle hlt => ?_, fun a ha => ?_, fun a hle ha => ?_⟩
  · have hi := (List.getElem?_eq_some_iff.mp hb).1
    rw [length_contents] at hi
    rw [putAll_of_ne fun x hx => ?_]
    · exact hbytes mem i b hb
    · have hrange := mem_zeros hx
      omega
  · rw [hebx] at hle hlt
    exact putAll_zeros hle hlt
  · rw [putAll_of_ne fun x hx => ?_, putAll_of_ne fun x hx => ?_]
    · have hrange := hinside x hx
      omega
    · have hrange := mem_zeros hx
      omega
  · rw [hebx] at hle
    rw [putAll_of_ne fun x hx => ?_, putAll_of_ne fun x hx => ?_]
    · have hrange := hinside x hx
      omega
    · have hrange := mem_zeros hx
      omega

/-- A load of the rest of a file returns, where the sectors of the file lie in front of the limit.
-/
theorem pmLoadHigh_returns (himpl : Implements fs map size ok)
    (hsize : size.toNat + fs.sectorSize - 1 < 2 ^ 32) (hshift : fs.sectorShift ≤ 15)
    (hcached : Cached map size ok inode) (hdvd : fs.sectorSize ∣ offset)
    (hlt : offset < size.toNat) (hedi : offset ≤ regs.edi.toNat)
    (hmem : regs.ebp.toNat ≤ 0xFFFF0000) (hfuel : 2 ^ 33 ≤ fuel)
    (hroom : regs.edi.toNat + fs.sectorsOf size.toNat * fs.sectorSize ≤ regs.limit + offset)
    (hn : size.toNat - offset < iterations) :
    ∃ loaded, pmLoadHigh fs fuel iterations regs inode offset garbage = some loaded ∧
      loaded.flag ≠ .overflow := by
  have hss := Nat.pow_le_pow_right (show 0 < 2 by decide) hshift
  change fs.sectorSize ≤ 2 ^ 15 at hss
  have hlimit : regs.limit ≤ regs.ebp.toNat := by
    rw [LoadRegs.limit, UInt32.toNat_and]
    exact Nat.and_le_left
  have hsectors := @sectorsOf_sub _ fs offset size hdvd hlt.le
  have hbefore := @le_sectorRoom _ fs regs.limit offset regs hdvd hedi (by omega)
  have hloading := @loading_rest _ fs regs.limit offset map size ok regs inode garbage hcached
    ⟨hlt.le, Or.inl hdvd⟩ hedi hbefore
  have hlength := @length_restInit _ fs offset map size regs inode garbage hlt.le
  have hends : ∃ flag t, runLoop (loadStep fs fuel regs.limit (regs.bx ≠ 0)) iterations
      (restInit fs map size regs inode offset garbage) = some (flag, t) ∧
      (regs.edi.toNat - offset + fs.sectorsOf size.toNat * fs.sectorSize ≤ regs.limit →
        flag ≠ .overflow) :=
    hloading.ends himpl hsize (by omega) (by omega) hfuel (by omega) iterations (Or.inr (by omega))
      (by omega)
  obtain ⟨flag, t, hrun, hflag⟩ := hends
  rw [restInit, runLoop_prepend] at hrun
  obtain ⟨⟨flag', t'⟩, hrun', heq⟩ := Option.map_eq_some_iff.mp hrun
  obtain rfl := (Prod.mk.inj heq).1
  refine ⟨_, Option.map_eq_some_iff.mpr ⟨(flag', t'), hrun', rfl⟩, hflag (by omega)⟩

end Liigboot.Fs
