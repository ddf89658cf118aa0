import Liigboot.Fs.Extent

/-!
# Reading sectors through the BIOS

`edd_rdwr_sectors` and `chs_rdwr_sectors`, for reads. A request is cut into chunks; a chunk is
tried again, halved, and goes through a buffer of the driver where the BIOS cannot reach its own
place in memory. When the EDD calls fail for good, the request goes on with the CHS calls.
-/

namespace Liigboot.Fs.DiskIo

/-! ## Disk, memory and BIOS -/

def retryCount : Nat := 6

/-- The constants of `struct disk`. The geometry is what `disk_init` gets from the BIOS. -/
structure Disk where
  sectorShift : Nat
  h : Nat
  s : Nat
  partStart : Nat
  shift_pos : 0 < sectorShift
  shift_le : sectorShift ≤ 16
  h_pos : 0 < h
  h_le : h ≤ 256
  s_pos : 0 < s
  s_le : s ≤ 63

/-- `disk->sector_size`. -/
def Disk.sectorSize (disk : Disk) : Nat := 2 ^ disk.sectorShift

/-- The driver in `disk->rdwr_sectors`. -/
inductive Driver
  | chs | edd
  deriving DecidableEq, Repr

/-- How the BIOS answers a call. A call that fails may leave anything in its buffer. -/
inductive Answer
  | ok
  | error (left : Nat → UInt8)

/-- The bytes of the disk, the answers of the BIOS one after the other, and the address of
`core_xfer_buf`, which is aligned to 64K. -/
structure Bios where
  byte : Nat → UInt8
  answer : Nat → Answer
  xferBuf : Nat
  xfer_le : xferBuf ≤ 0xf0000
  xfer_aligned : 0x10000 ∣ xferBuf

/-- Memory, the number of calls so far, and the fields of `struct disk` that change. -/
structure State where
  mem : Nat → UInt8
  calls : Nat
  maxtransfer : Nat
  driver : Driver

/-- Memory after `n` bytes have been stored at an address. -/
def store (mem : Nat → UInt8) (addr n : Nat) (bytes : Nat → UInt8) (a : Nat) : UInt8 :=
  if addr ≤ a ∧ a < addr + n then bytes (a - addr) else mem a

/-- `GET_PTR(FAR_PTR(ptr))`: the segment has 16 bits. -/
def farAddr (ptr : Nat) : Nat := ptr / 16 % 0x10000 * 16 + ptr % 16

variable (bios : Bios) (disk : Disk)

/-- A call that reads `blocks` sectors from `lba` on. -/
def biosRead (addr lba blocks : Nat) (st : State) : Bool × State :=
  match bios.answer st.calls with
  | .ok => (true, { st with
      mem := store st.mem addr (blocks * disk.sectorSize)
        fun k => bios.byte (lba * disk.sectorSize + k)
      calls := st.calls + 1 })
  | .error left => (false, { st with
      mem := store st.mem addr (blocks * disk.sectorSize) left
      calls := st.calls + 1 })

/-- The sector that the registers of a CHS call name. -/
def chsSector (ch cl dh : Nat) : Nat :=
  ((ch + cl / 64 * 256) * disk.h + dh) * disk.s + (cl % 64 - 1)

/-! ## The loops of the drivers -/

variable {disk}

/-- `if (retry--) continue;`: a call, with `retry` more calls as long as it fails. -/
def retries (call : State → Bool × State) : Nat → State → Bool × State
  | 0, st => call st
  | retry + 1, st =>
    match call st with
    | (true, st) => (true, st)
    | (false, st) => retries call retry st

/-- `for (;;)`: a chunk is halved until a call succeeds; the result is the chunk that was read and
`maxtransfer`. A chunk is not halved more often than it has sectors. -/
def tryChunk (call : Nat → State → Bool × State) : Nat → Nat → Nat → State →
    Option (Nat × Nat) × State
  | 0, _, _, st => (none, st)
  | n + 1, chunk, maxtransfer, st =>
    match retries (call chunk) retryCount st with
    | (true, st) => (some (chunk, maxtransfer), st)
    | (false, st) =>
      let chunk := chunk / 2
      if chunk ≠ 0 then tryChunk call n chunk chunk st else (none, st)

/-- How a driver ends. -/
inductive End
  | finished | failed
  deriving DecidableEq, Repr

/-- `ptr`, `lba` or `xlba`, `count` and `done`. -/
structure Progress where
  ptr : Nat
  lba : Nat
  count : Nat
  done : Nat
  deriving DecidableEq, Repr

variable (disk)

/-- The sectors up to the next 64K line. -/
def freeseg (ptr : Nat) : Nat := (0x10000 - ptr % 0x10000) / disk.sectorSize

/-- `tptr`: where the BIOS puts a chunk. -/
def transferPtr (direct : Bool) (ptr : Nat) : Nat :=
  if direct ∧ freeseg disk ptr ≠ 0 then ptr else bios.xferBuf

/-- What follows a chunk that was read. -/
def Progress.advance (p : Progress) (chunk : Nat) : Progress where
  ptr := p.ptr + chunk * disk.sectorSize
  lba := p.lba + chunk
  count := p.count - chunk
  done := p.done + chunk

/-- `if (tptr != ptr && !is_write) memcpy(ptr, tptr, bytes);`, and `disk->maxtransfer`. -/
def copyBack (tptr ptr chunk maxtransfer : Nat) (st : State) : State where
  mem := if tptr ≠ ptr then store st.mem ptr (chunk * disk.sectorSize) fun k => st.mem (tptr + k)
    else st.mem
  calls := st.calls
  maxtransfer := maxtransfer
  driver := st.driver

/-- `while (count)` of `chs_rdwr_sectors`, for at most `n` rounds. A round reads a sector. -/
def chsLoop (buf : Nat) : Nat → Progress → State → End × Progress × State
  | 0, p, st => (.finished, p, st)
  | n + 1, p, st =>
    if p.count = 0 then (.finished, p, st)
    else
      let tptr := transferPtr bios disk (buf ≤ 0xf0000) p.ptr
      let s := p.lba % disk.s
      let t := p.lba / disk.s
      let h := t % disk.h
      let c := t / disk.h
      let chunk := min (min (min p.count st.maxtransfer) (freeseg disk tptr)) (disk.s - s)
      let lba := chsSector disk (c % 256) (c % 1024 / 256 * 64 + (s + 1)) (h % 256)
      if c < 1024 then
        match tryChunk (fun chunk => biosRead bios disk (farAddr tptr) lba (chunk % 256)) chunk chunk
          st.maxtransfer st with
        | (none, st) => (.failed, p, st)
        | (some (chunk, maxtransfer), st) =>
          chsLoop buf n (p.advance disk chunk) (copyBack disk tptr p.ptr chunk maxtransfer st)
      else (.failed, p, st)

/-- `chs_max`. -/
def chsMax : Nat := disk.h * disk.s * 1024

/-- `chs_rdwr_sectors`: how it ends, its result, and the state. -/
def chsRdwrSectors (buf lba count : Nat) (st : State) : End × Nat × State :=
  if lba + disk.partStart ≥ chsMax disk then (.failed, 0, st)
  else
    match chsLoop bios disk buf count ⟨buf, u32 (lba + disk.partStart), count, 0⟩ st with
    | (how, p, st) => (how, p.done, st)

/-- `while (count)` of `edd_rdwr_sectors`, up to where its calls fail for good. -/
def eddLoop : Nat → Progress → State → End × Progress × State
  | 0, p, st => (.finished, p, st)
  | n + 1, p, st =>
    if p.count = 0 then (.finished, p, st)
    else
      let tptr := transferPtr bios disk (p.ptr ≤ 0xf0000) p.ptr
      let chunk := min (min p.count st.maxtransfer) (freeseg disk tptr)
      match tryChunk (fun chunk => biosRead bios disk (farAddr tptr) p.lba (chunk % 0x10000)) chunk
        chunk st.maxtransfer st with
      | (none, st) => (.failed, p, st)
      | (some (chunk, maxtransfer), st) =>
        eddLoop n (p.advance disk chunk) (copyBack disk tptr p.ptr chunk maxtransfer st)

/-- `edd_rdwr_sectors`. -/
def eddRdwrSectors (buf lba count : Nat) (st : State) : Nat × State :=
  match eddLoop bios disk count ⟨buf, lba + disk.partStart, count, 0⟩ st with
  | (.finished, p, st) => (p.done, st)
  | (.failed, p, st) =>
    match chsRdwrSectors bios disk buf (p.lba - disk.partStart) p.count st with
    | (_, done, st) =>
      if done = u32 (p.count * disk.sectorSize) then (done, { st with driver := .chs })
      else (done, st)

/-! ## Chunks -/

variable {bios : Bios} {disk}

/-- The bytes that are stored. -/
theorem store_of_mem {mem bytes : Nat → UInt8} {addr n k : Nat} (hk : k < n) :
    store mem addr n bytes (addr + k) = bytes k := by
  rw [store, if_pos ⟨Nat.le_add_right _ _, Nat.add_lt_add_left hk _⟩, Nat.add_sub_cancel_left]

/-- The bytes that are left. -/
theorem store_of_notMem {mem bytes : Nat → UInt8} {addr n a : Nat}
    (ha : ¬(addr ≤ a ∧ a < addr + n)) : store mem addr n bytes a = mem a := if_neg ha

theorem Disk.sectorSize_pos (disk : Disk) : 0 < disk.sectorSize := Nat.two_pow_pos _

/-- The buffer holds `n` sectors from `lba` on. -/
def Holds (bios : Bios) (disk : Disk) (mem : Nat → UInt8) (buf lba n : Nat) : Prop :=
  ∀ k < n * disk.sectorSize, mem (buf + k) = bios.byte (lba * disk.sectorSize + k)

/-- Memory is unchanged outside a piece of it. -/
def Keeps (addr n : Nat) (mem mem' : Nat → UInt8) : Prop :=
  ∀ a, ¬(addr ≤ a ∧ a < addr + n) → mem' a = mem a

/-- Two steps that keep the memory outside of a range do so together. -/
theorem Keeps.trans {addr n : Nat} {mem mem' mem'' : Nat → UInt8} (h : Keeps addr n mem mem')
    (h' : Keeps addr n mem' mem'') : Keeps addr n mem mem'' :=
  fun a ha => (h' a ha).trans (h a ha)

/-- What is kept outside of a range is kept outside of a larger one. -/
theorem Keeps.mono {addr m n : Nat} {mem mem' : Nat → UInt8} (h : Keeps addr m mem mem')
    (hle : m ≤ n) : Keeps addr n mem mem' :=
  fun a ha => h a fun hin => ha ⟨hin.1, by omega⟩

/-- What a call for a number of sectors does, whether it succeeds or fails. -/
structure Reads (bios : Bios) (disk : Disk) (addr lba blocks : Nat)
    (call : State → Bool × State) : Prop where
  keeps : ∀ st, Keeps addr (blocks * disk.sectorSize) st.mem (call st).2.mem
  holds : ∀ st, (call st).1 = true → Holds bios disk (call st).2.mem addr lba blocks
  same : ∀ st, (call st).2.maxtransfer = st.maxtransfer ∧ (call st).2.driver = st.driver

/-- A call of the BIOS reads the sectors, or fails. -/
theorem biosRead_reads (addr lba blocks : Nat) :
    Reads bios disk addr lba blocks (biosRead bios disk addr lba blocks) := by
  constructor
  · intro st a ha
    rw [biosRead]
    split
    · dsimp only
      exact store_of_notMem ha
    · dsimp only
      exact store_of_notMem ha
  · intro st hok k hk
    rw [biosRead] at hok ⊢
    split at hok
    · dsimp only
      exact store_of_mem hk
    · exact nomatch hok
  · intro st
    rw [biosRead]
    split
    · exact ⟨rfl, rfl⟩
    · exact ⟨rfl, rfl⟩

/-- So do several tries. -/
theorem retries_reads {addr lba blocks : Nat} {call : State → Bool × State}
    (hcall : Reads bios disk addr lba blocks call) (retry : Nat) :
    Reads bios disk addr lba blocks (retries call retry) := by
  induction retry with
  | zero => exact hcall
  | succ retry ih =>
    constructor
    · intro st
      have hfirst := hcall.keeps st
      rw [retries]
      split
      · rename_i st' heq
        rw [heq] at hfirst
        exact hfirst
      · rename_i st' heq
        rw [heq] at hfirst
        exact hfirst.trans (ih.keeps st')
    · intro st hok
      have hfirst := hcall.holds st
      rw [retries] at hok ⊢
      split at hok
      · rename_i st' heq
        rw [heq] at hfirst
        exact hfirst rfl
      · rename_i st' heq
        exact ih.holds st' hok
    · intro st
      have hfirst := hcall.same st
      rw [retries]
      split
      · rename_i st' heq
        rw [heq] at hfirst
        exact hfirst
      · rename_i st' heq
        rw [heq] at hfirst
        exact ⟨(ih.same st').1.trans hfirst.1, (ih.same st').2.trans hfirst.2⟩

/-- A chunk of at most `limit` sectors is read as a whole, or half of it is, or nothing. -/
theorem tryChunk_spec {addr lba limit : Nat} {call : Nat → State → Bool × State}
    (hcall : ∀ chunk ≤ limit, Reads bios disk addr lba chunk (call chunk)) (n : Nat)
    {chunk maxtransfer : Nat} {st : State} (hlimit : chunk ≤ limit) (hchunk : 0 < chunk)
    (hmax : 0 < maxtransfer) :
    Keeps addr (chunk * disk.sectorSize) st.mem (tryChunk call n chunk maxtransfer st).2.mem ∧
      ((tryChunk call n chunk maxtransfer st).2.maxtransfer = st.maxtransfer ∧
        (tryChunk call n chunk maxtransfer st).2.driver = st.driver) ∧
      ∀ chunk' maxtransfer', (tryChunk call n chunk maxtransfer st).1 =
        some (chunk', maxtransfer') → 0 < chunk' ∧ chunk' ≤ chunk ∧ 0 < maxtransfer' ∧
          Holds bios disk (tryChunk call n chunk maxtransfer st).2.mem addr lba chunk' := by
  induction n generalizing chunk maxtransfer st with
  | zero => exact ⟨fun _ _ => rfl, ⟨rfl, rfl⟩, nofun⟩
  | succ n ih =>
    have hreads := retries_reads (hcall chunk hlimit) retryCount
    have hkeeps := hreads.keeps st
    have hholds := hreads.holds st
    have hsame := hreads.same st
    rw [tryChunk]
    split
    · rename_i st' heq
      rw [heq] at hkeeps hholds hsame
      refine ⟨hkeeps, hsame, fun chunk' maxtransfer' hsome => ?_⟩
      obtain ⟨rfl, rfl⟩ := Prod.mk.inj (Option.some.inj hsome)
      exact ⟨hchunk, le_rfl, hmax, hholds rfl⟩
    · rename_i st' heq
      rw [heq] at hkeeps hsame
      dsimp only
      split
      · rename_i hhalf
        have hle : chunk / 2 ≤ chunk := Nat.div_le_self _ _
        have hpos := Nat.pos_of_ne_zero hhalf
        obtain ⟨hrest, hsame', hspec⟩ :=
          @ih (chunk / 2) (chunk / 2) st' (hle.trans hlimit) hpos hpos
        refine ⟨hkeeps.trans (hrest.mono (Nat.mul_le_mul_right _ hle)), 
          ⟨hsame'.1.trans hsame.1, hsame'.2.trans hsame.2⟩, ?_⟩
        intro chunk' maxtransfer' hsome
        obtain ⟨hpos', hle', hrest'⟩ := hspec chunk' maxtransfer' hsome
        exact ⟨hpos', hle'.trans hle, hrest'⟩
      · exact ⟨hkeeps, hsame, nofun⟩

/-! ## Rounds -/

/-- An address below 1 MiB is the one of its far pointer. -/
theorem farAddr_eq {ptr : Nat} (h : ptr < 0x100000) : farAddr ptr = ptr := by
  rw [farAddr]
  omega

/-- What is left of a segment is less than 64 KiB. -/
theorem freeseg_lt (disk : Disk) (ptr : Nat) : freeseg disk ptr < 0x10000 := by
  have hsize : 2 ≤ disk.sectorSize := Nat.pow_le_pow_right (by decide : 0 < 2) disk.shift_pos
  have hdiv : (0x10000 - ptr % 0x10000) / disk.sectorSize ≤ 0x10000 / 2 :=
    Nat.div_le_div (Nat.sub_le _ _) hsize (by decide)
  rw [freeseg]
  omega

/-- A chunk ends at a 64K line at the latest. -/
theorem chunk_le_freeseg {chunk ptr : Nat} (h : chunk ≤ freeseg disk ptr) :
    chunk * disk.sectorSize ≤ 0x10000 - ptr % 0x10000 :=
  (Nat.mul_le_mul_right _ h).trans (Nat.div_mul_le_self _ _)

theorem freeseg_xferBuf_pos (bios : Bios) (disk : Disk) : 0 < freeseg disk bios.xferBuf := by
  obtain ⟨k, hk⟩ := bios.xfer_aligned
  have hzero : bios.xferBuf % 0x10000 = 0 := by omega
  rw [freeseg, hzero]
  exact Nat.div_pos (Nat.pow_le_pow_right (by decide) disk.shift_le) disk.sectorSize_pos

theorem freeseg_transferPtr_pos (direct : Bool) (ptr : Nat) :
    0 < freeseg disk (transferPtr bios disk direct ptr) := by
  rw [transferPtr]
  split
  · rename_i h
    exact Nat.pos_of_ne_zero h.2
  · exact freeseg_xferBuf_pos bios disk

/-- The transfer goes to the caller's buffer or to the transfer buffer. -/
theorem transferPtr_cases (direct : Bool) (ptr : Nat) :
    transferPtr bios disk direct ptr = ptr ∧ direct = true ∨
      transferPtr bios disk direct ptr = bios.xferBuf := by
  rw [transferPtr]
  split
  · rename_i h
    exact Or.inl ⟨rfl, h.1⟩
  · exact Or.inr rfl

/-- Memory is unchanged outside a piece of it and outside the buffer of the driver. -/
def Spares (bios : Bios) (addr n : Nat) (mem mem' : Nat → UInt8) : Prop :=
  ∀ a, ¬(addr ≤ a ∧ a < addr + n) → ¬(bios.xferBuf ≤ a ∧ a < bios.xferBuf + 0x10000) →
    mem' a = mem a

/-- A round brings a chunk to its place. -/
theorem round_spec {direct : Bool} {ptr lba limit chunk : Nat}
    {call : Nat → State → Bool × State} {st : State}
    (hcall : ∀ chunk ≤ limit,
      Reads bios disk (transferPtr bios disk direct ptr) lba chunk (call chunk))
    (hlimit : chunk ≤ limit) (hchunk : 0 < chunk) (hmax : 0 < st.maxtransfer)
    (hfree : chunk ≤ freeseg disk (transferPtr bios disk direct ptr)) :
    Spares bios ptr (chunk * disk.sectorSize) st.mem
        (tryChunk call chunk chunk st.maxtransfer st).2.mem ∧
      ((tryChunk call chunk chunk st.maxtransfer st).2.maxtransfer = st.maxtransfer ∧
        (tryChunk call chunk chunk st.maxtransfer st).2.driver = st.driver) ∧
      ∀ chunk' maxtransfer' st',
        tryChunk call chunk chunk st.maxtransfer st = (some (chunk', maxtransfer'), st') →
          0 < chunk' ∧ chunk' ≤ chunk ∧ 0 < maxtransfer' ∧
          (copyBack disk (transferPtr bios disk direct ptr) ptr chunk' maxtransfer' st').driver =
            st.driver ∧
          Spares bios ptr (chunk * disk.sectorSize) st.mem
            (copyBack disk (transferPtr bios disk direct ptr) ptr chunk' maxtransfer' st').mem ∧
          Holds bios disk
            (copyBack disk (transferPtr bios disk direct ptr) ptr chunk' maxtransfer' st').mem
            ptr lba chunk' := by
  obtain ⟨hkeeps, hsame, hspec⟩ := @tryChunk_spec disk bios _ lba limit call hcall chunk chunk
    st.maxtransfer st hlimit hchunk hmax
  have hsegment := chunk_le_freeseg hfree
  have hspares : Spares bios ptr (chunk * disk.sectorSize) st.mem
      (tryChunk call chunk chunk st.maxtransfer st).2.mem := by
    intro a hptr hxfer
    refine hkeeps a fun hin => ?_
    rcases @transferPtr_cases disk bios direct ptr with ⟨heq, -⟩ | heq
    · rw [heq] at hin
      exact hptr hin
    · rw [heq] at hin hsegment
      exact hxfer ⟨hin.1, by omega⟩
  refine ⟨hspares, hsame, fun chunk' maxtransfer' st' heq => ?_⟩
  rw [heq] at hspec hspares hsame
  obtain ⟨hpos, hle, hmax', hholds⟩ := hspec chunk' maxtransfer' rfl
  refine ⟨hpos, hle, hmax', hsame.2, ?_, ?_⟩
  · intro a hptr hxfer
    rw [copyBack]
    dsimp only
    split
    · rw [store_of_notMem, hspares a hptr hxfer]
      have hmul := Nat.mul_le_mul_right disk.sectorSize hle
      exact fun hin => hptr ⟨hin.1, by omega⟩
    · exact hspares a hptr hxfer
  · intro k hk
    rw [copyBack]
    dsimp only
    split
    · rw [store_of_mem hk]
      exact hholds k hk
    · rename_i hplace
      rw [ne_eq, not_not] at hplace
      have hbyte := hholds k hk
      rwa [hplace] at hbyte

/-! ## Requests -/

/-- A request for a buffer that lies in memory and is not the buffer of the driver. -/
structure Request (bios : Bios) (disk : Disk) (buf count : Nat) : Prop where
  fits : buf + count * disk.sectorSize ≤ 2 ^ 32
  disjoint : ∀ a, buf ≤ a → a < buf + count * disk.sectorSize →
    ¬(bios.xferBuf ≤ a ∧ a < bios.xferBuf + 0x10000)

/-- A part of a request is done. -/
structure Progress.Inv (bios : Bios) (disk : Disk) (buf lba count : Nat) (driver : Driver)
    (p : Progress) (st : State) : Prop where
  ptr_eq : p.ptr = buf + p.done * disk.sectorSize
  lba_eq : p.lba = lba + p.done
  done_add : p.done + p.count = count
  holds : Holds bios disk st.mem buf lba p.done
  maxtransfer_pos : 0 < st.maxtransfer
  driver_eq : st.driver = driver

variable {buf lba count : Nat} {driver : Driver} {p : Progress} {st : State}

/-- At first everything is left to do. -/
theorem Progress.Inv.start {count : Nat} (h : 0 < st.maxtransfer) :
    Progress.Inv bios disk buf lba count st.driver ⟨buf, lba, count, 0⟩ st where
  ptr_eq := by rw [Nat.zero_mul, Nat.add_zero]
  lba_eq := rfl
  done_add := Nat.zero_add _
  holds k hk := by
    rw [Nat.zero_mul] at hk
    exact absurd hk (Nat.not_lt_zero k)
  maxtransfer_pos := h
  driver_eq := rfl

/-- What is read stays where it is when the rest of the buffer changes. -/
theorem Progress.Inv.keep (h : p.Inv bios disk buf lba count driver st)
    (hreq : Request bios disk buf count) {n : Nat} {mem : Nat → UInt8}
    (hspares : Spares bios p.ptr n st.mem mem) : Holds bios disk mem buf lba p.done := by
  intro k hk
  have hmul := Nat.mul_le_mul_right disk.sectorSize (Nat.le.intro h.done_add)
  rw [hspares (buf + k), h.holds k hk]
  · rw [h.ptr_eq]
    omega
  · exact hreq.disjoint (buf + k) (by omega) (by omega)

/-- A round that fails. -/
theorem Progress.Inv.fail (h : p.Inv bios disk buf lba count driver st)
    (hreq : Request bios disk buf count) {n : Nat} {st' : State}
    (hspares : Spares bios p.ptr n st.mem st'.mem)
    (hsame : st'.maxtransfer = st.maxtransfer ∧ st'.driver = st.driver) :
    p.Inv bios disk buf lba count driver st' :=
  ⟨h.ptr_eq, h.lba_eq, h.done_add, h.keep hreq hspares, hsame.1 ▸ h.maxtransfer_pos,
    hsame.2.trans h.driver_eq⟩

/-- A round that reads a chunk. -/
theorem Progress.Inv.advance (h : p.Inv bios disk buf lba count driver st)
    (hreq : Request bios disk buf count) {chunk n : Nat} {st' : State} (hle : chunk ≤ p.count)
    (hmax : 0 < st'.maxtransfer) (hdriver : st'.driver = st.driver)
    (hspares : Spares bios p.ptr n st.mem st'.mem)
    (hholds : Holds bios disk st'.mem p.ptr p.lba chunk) :
    (p.advance disk chunk).Inv bios disk buf lba count driver st' := by
  have hdone := h.keep hreq hspares
  refine ⟨?_, ?_, ?_, fun k hk => ?_, hmax, hdriver.trans h.driver_eq⟩
  · rw [Progress.advance]
    dsimp only
    rw [h.ptr_eq, Nat.add_mul, Nat.add_assoc]
  · rw [Progress.advance]
    dsimp only
    rw [h.lba_eq, Nat.add_assoc]
  · have hcount := h.done_add
    rw [Progress.advance]
    dsimp only
    omega
  · rw [Progress.advance] at hk
    dsimp only at hk
    rw [Nat.add_mul] at hk
    by_cases hold : k < p.done * disk.sectorSize
    · exact hdone k hold
    · have hbyte := hholds (k - p.done * disk.sectorSize) (by omega)
      have hpos : p.ptr + (k - p.done * disk.sectorSize) = buf + k := by
        rw [h.ptr_eq]
        omega
      have hsector : p.lba * disk.sectorSize + (k - p.done * disk.sectorSize) =
          lba * disk.sectorSize + k := by
        rw [h.lba_eq, Nat.add_mul]
        omega
      rwa [hpos, hsector] at hbyte

/-- How a loop ends. -/
structure LoopEnd (bios : Bios) (disk : Disk) (buf lba count : Nat) (driver : Driver)
    (p : Progress) (result : End × Progress × State) : Prop where
  inv : result.2.1.Inv bios disk buf lba count driver result.2.2
  le : p.done ≤ result.2.1.done
  finished : result.1 = .finished → result.2.1.count = 0
  failed : result.1 = .failed → 0 < result.2.1.count

/-- A round of either loop: the calls for its chunk fail for good, or the loop goes on behind it. -/
theorem round_loopEnd {direct : Bool} {chunk n : Nat} {call : Nat → State → Bool × State}
    {loop : Progress → State → End × Progress × State} (hreq : Request bios disk buf count)
    (h : p.Inv bios disk buf lba count driver st) (hchunk : 0 < chunk) (hle : chunk ≤ p.count)
    (hfree : chunk ≤ freeseg disk (transferPtr bios disk direct p.ptr))
    (hcall : ∀ m ≤ chunk,
      Reads bios disk (transferPtr bios disk direct p.ptr) p.lba m (call m))
    (hn : p.count ≤ n + 1)
    (hloop : ∀ {p : Progress} {st : State}, p.Inv bios disk buf lba count driver st →
      p.count ≤ n → LoopEnd bios disk buf lba count driver p (loop p st)) :
    LoopEnd bios disk buf lba count driver p
      (match tryChunk call chunk chunk st.maxtransfer st with
      | (none, st) => (.failed, p, st)
      | (some (chunk, maxtransfer), st) =>
        loop (p.advance disk chunk)
          (copyBack disk (transferPtr bios disk direct p.ptr) p.ptr chunk maxtransfer st)) := by
  obtain ⟨hnone, hsame, hsome⟩ := round_spec hcall le_rfl hchunk h.maxtransfer_pos hfree
  split
  · rename_i st' heq
    rw [heq] at hnone hsame
    exact ⟨h.fail hreq hnone hsame, le_rfl, nofun, fun _ => hchunk.trans_le hle⟩
  · rename_i chunk' maxtransfer' st' heq
    obtain ⟨hpos', hle', hmax', hdriver, hspares, hholds⟩ := hsome _ _ _ heq
    have hinv := h.advance hreq (hle'.trans hle) hmax' hdriver hspares hholds
    have hend := hloop hinv (by
      rw [Progress.advance]
      dsimp only
      omega)
    exact ⟨hend.inv, le_trans (Nat.le_add_right _ _) hend.le, hend.finished, hend.failed⟩

/-- A chunk of an EDD call. -/
theorem eddChunk_spec (h : p.Inv bios disk buf lba count driver st) (hpos : 0 < p.count) :
    let tptr := transferPtr bios disk (p.ptr ≤ 0xf0000) p.ptr
    let chunk := min (min p.count st.maxtransfer) (freeseg disk tptr)
    0 < chunk ∧ chunk ≤ p.count ∧ chunk ≤ freeseg disk tptr ∧
      ∀ n ≤ chunk, Reads bios disk tptr p.lba n
        (biosRead bios disk (farAddr tptr) p.lba (n % 0x10000)) := by
  have hfree := @freeseg_transferPtr_pos disk bios (p.ptr ≤ 0xf0000) p.ptr
  have hmax := h.maxtransfer_pos
  refine ⟨by omega, by omega, by omega, fun n hn => ?_⟩
  have hlow : transferPtr bios disk (p.ptr ≤ 0xf0000) p.ptr < 0x100000 := by
    have hxfer := bios.xfer_le
    rcases @transferPtr_cases disk bios (p.ptr ≤ 0xf0000) p.ptr with ⟨heq, hdirect⟩ | heq
    · rw [heq]
      have hle := of_decide_eq_true hdirect
      omega
    · rw [heq]
      omega
  have hn' : n < 0x10000 := by
    have hlt := freeseg_lt disk (transferPtr bios disk (p.ptr ≤ 0xf0000) p.ptr)
    omega
  rw [farAddr_eq hlow, Nat.mod_eq_of_lt hn']
  exact biosRead_reads _ _ _

/-- The loop over the chunks ends, with all sectors read or with an error. -/
theorem eddLoop_spec (hreq : Request bios disk buf count) (n : Nat) {p : Progress} {st : State}
    (h : p.Inv bios disk buf lba count driver st) (hn : p.count ≤ n) :
    LoopEnd bios disk buf lba count driver p (eddLoop bios disk n p st) := by
  induction n generalizing p st with
  | zero => exact ⟨h, le_rfl, fun _ => Nat.le_zero.mp hn, nofun⟩
  | succ n ih =>
    rw [eddLoop]
    split
    · rename_i hzero
      exact ⟨h, le_rfl, fun _ => hzero, nofun⟩
    · rename_i hcount
      have hpos := Nat.pos_of_ne_zero hcount
      obtain ⟨hchunk, hle, hfree, hcall⟩ := eddChunk_spec h hpos
      exact round_loopEnd hreq h hchunk hle hfree hcall hn ih

/-! ## The CHS calls -/

/-- The registers name the sector. -/
theorem chsSector_eq (disk : Disk) {lba : Nat} (hc : lba / disk.s / disk.h < 1024) :
    chsSector disk (lba / disk.s / disk.h % 256)
      (lba / disk.s / disk.h % 1024 / 256 * 64 + (lba % disk.s + 1))
      (lba / disk.s % disk.h % 256) = lba := by
  have hs := Nat.mod_lt lba disk.s_pos
  have hh := Nat.mod_lt (lba / disk.s) disk.h_pos
  have hsle := disk.s_le
  have hhle := disk.h_le
  have hcyl := Nat.div_add_mod (lba / disk.s) disk.h
  have hsec := Nat.div_add_mod lba disk.s
  generalize lba / disk.s / disk.h = c at hc hcyl ⊢
  have hlow : c % 256 + (c % 1024 / 256 * 64 + (lba % disk.s + 1)) / 64 * 256 = c := by omega
  have hsector : (c % 1024 / 256 * 64 + (lba % disk.s + 1)) % 64 - 1 = lba % disk.s := by omega
  rw [chsSector, hlow, hsector, Nat.mod_eq_of_lt (Nat.lt_of_lt_of_le hh hhle),
    Nat.mul_comm c disk.h, hcyl, Nat.mul_comm _ disk.s, hsec]

/-- A buffer that starts below the last segment of the first megabyte ends there. -/
def LowOrHigh (disk : Disk) (buf count : Nat) : Prop :=
  buf ≤ 0xf0000 → buf + count * disk.sectorSize ≤ 0x100000

/-- A chunk of a CHS call. -/
theorem chsChunk_spec (hplace : LowOrHigh disk buf count)
    (h : p.Inv bios disk buf lba count driver st)
    (hpos : 0 < p.count) (hc : p.lba / disk.s / disk.h < 1024) :
    let tptr := transferPtr bios disk (buf ≤ 0xf0000) p.ptr
    let chunk := min (min (min p.count st.maxtransfer) (freeseg disk tptr))
      (disk.s - p.lba % disk.s)
    0 < chunk ∧ chunk ≤ p.count ∧ chunk ≤ freeseg disk tptr ∧
      ∀ n ≤ chunk, Reads bios disk tptr p.lba n
        (biosRead bios disk (farAddr tptr) (chsSector disk (p.lba / disk.s / disk.h % 256)
          (p.lba / disk.s / disk.h % 1024 / 256 * 64 + (p.lba % disk.s + 1))
          (p.lba / disk.s % disk.h % 256)) (n % 256)) := by
  have hfree := @freeseg_transferPtr_pos disk bios (buf ≤ 0xf0000) p.ptr
  have hmax := h.maxtransfer_pos
  have hs := Nat.mod_lt p.lba disk.s_pos
  have hsle := disk.s_le
  refine ⟨by omega, by omega, by omega, fun n hn => ?_⟩
  have hlow : transferPtr bios disk (buf ≤ 0xf0000) p.ptr < 0x100000 := by
    have hxfer := bios.xfer_le
    rcases @transferPtr_cases disk bios (buf ≤ 0xf0000) p.ptr with ⟨heq, hdirect⟩ | heq
    · rw [heq, h.ptr_eq]
      have hend := hplace (of_decide_eq_true hdirect)
      have hdone := h.done_add
      have hmul := Nat.mul_lt_mul_of_pos_right (show p.done < count by omega) disk.sectorSize_pos
      omega
    · rw [heq]
      omega
  rw [farAddr_eq hlow, chsSector_eq disk hc, Nat.mod_eq_of_lt (show n < 256 by omega)]
  exact biosRead_reads _ _ _

/-- So does the one with cylinders, heads and sectors. -/
theorem chsLoop_spec (hreq : Request bios disk buf count) (hplace : LowOrHigh disk buf count)
    (n : Nat) {p : Progress} {st : State} (h : p.Inv bios disk buf lba count driver st)
    (hn : p.count ≤ n) : LoopEnd bios disk buf lba count driver p (chsLoop bios disk buf n p st) := by
  induction n generalizing p st with
  | zero => exact ⟨h, le_rfl, fun _ => Nat.le_zero.mp hn, nofun⟩
  | succ n ih =>
    rw [chsLoop]
    split
    · rename_i hzero
      exact ⟨h, le_rfl, fun _ => hzero, nofun⟩
    · rename_i hcount
      have hpos := Nat.pos_of_ne_zero hcount
      dsimp only
      split
      · rename_i hc
        obtain ⟨hchunk, hle, hfree, hcall⟩ := chsChunk_spec hplace h hpos hc
        exact round_loopEnd hreq h hchunk hle hfree hcall hn ih
      · exact ⟨h, le_rfl, nofun, fun _ => hpos⟩

/-- The last sector of a geometry has 32 bits. -/
theorem chsMax_lt (disk : Disk) : chsMax disk < 2 ^ 32 := by
  have hmul := Nat.mul_le_mul disk.h_le disk.s_le
  rw [chsMax]
  omega

/-- The CHS calls read what they count, and count everything unless they fail. -/
theorem chsRdwrSectors_spec (hreq : Request bios disk buf count)
    (hplace : LowOrHigh disk buf count) (hmax : 0 < st.maxtransfer) (hcount : 0 < count) :
    Holds bios disk (chsRdwrSectors bios disk buf lba count st).2.2.mem buf
        (lba + disk.partStart) (chsRdwrSectors bios disk buf lba count st).2.1 ∧
      (chsRdwrSectors bios disk buf lba count st).2.1 ≤ count ∧
      ((chsRdwrSectors bios disk buf lba count st).1 = .finished ↔
        (chsRdwrSectors bios disk buf lba count st).2.1 = count) ∧
      (chsRdwrSectors bios disk buf lba count st).2.2.driver = st.driver := by
  rw [chsRdwrSectors]
  split
  · refine ⟨fun k hk => ?_, Nat.zero_le _, ⟨nofun, fun h => absurd h hcount.ne⟩, rfl⟩
    rw [Nat.zero_mul] at hk
    exact absurd hk (Nat.not_lt_zero k)
  · rename_i hlt
    have hlba : u32 (lba + disk.partStart) = lba + disk.partStart :=
      u32_of_lt ((Nat.lt_of_not_le hlt).trans (chsMax_lt disk))
    rw [hlba]
    have hstart : Progress.Inv bios disk buf (lba + disk.partStart) count st.driver _ st :=
      .start hmax
    have hend := chsLoop_spec hreq hplace count hstart le_rfl
    rcases heq : chsLoop bios disk buf count ⟨buf, lba + disk.partStart, count, 0⟩ st with
      ⟨how, p, st'⟩
    rw [heq] at hend
    obtain ⟨hinv, -, hfinished, hfailed⟩ := hend
    dsimp only at hinv hfinished hfailed ⊢
    have hadd := hinv.done_add
    refine ⟨hinv.holds, Nat.le.intro hadd, ⟨fun h => ?_, fun h => ?_⟩, hinv.driver_eq⟩
    · have hzero := hfinished h
      omega
    · cases how with
      | finished => rfl
      | failed =>
        have hpos := hfailed rfl
        omega

/-! ## The fallback -/

/-- The EDD calls fail for good behind `p`. -/
def GivesUp (bios : Bios) (disk : Disk) (buf lba count : Nat) (st : State) (p : Progress)
    (st₀ : State) : Prop :=
  eddLoop bios disk count ⟨buf, lba + disk.partStart, count, 0⟩ st = (.failed, p, st₀)

/-- The CHS calls that follow where the EDD calls fail for good. -/
def fallback (bios : Bios) (disk : Disk) (buf : Nat) (p : Progress) (st₀ : State) :
    End × Nat × State :=
  chsRdwrSectors bios disk buf (p.lba - disk.partStart) p.count st₀

/-- The result counts the sectors that the buffer holds: all of them unless the EDD calls fail for
good, and then those read before and after that. A fallback that reads all the rest is
remembered. -/
structure Transfers (bios : Bios) (disk : Disk) (buf lba count : Nat) (st : State) : Prop where
  holds : Holds bios disk (eddRdwrSectors bios disk buf lba count st).2.mem buf
    (lba + disk.partStart) (eddRdwrSectors bios disk buf lba count st).1
  all : (∀ p st₀, ¬GivesUp bios disk buf lba count st p st₀) →
    (eddRdwrSectors bios disk buf lba count st).1 = count
  rest : ∀ p st₀, GivesUp bios disk buf lba count st p st₀ →
    (eddRdwrSectors bios disk buf lba count st).1 =
        p.done + (fallback bios disk buf p st₀).2.1 ∧
      ((fallback bios disk buf p st₀).2.1 = p.count →
        (eddRdwrSectors bios disk buf lba count st).1 = count ∧
          (eddRdwrSectors bios disk buf lba count st).2.driver = .chs)

/-- Where the EDD calls fail for good, nothing is read yet, and the CHS calls fail as well. -/
def NoFallback (bios : Bios) (disk : Disk) (buf lba count : Nat) (st : State) : Prop :=
  ∀ p st₀, GivesUp bios disk buf lba count st p st₀ →
    p.done = 0 ∧ (fallback bios disk buf p st₀).1 = .failed

/-- A part of a request fits where the request does. -/
theorem Request.le {n : Nat} (hreq : Request bios disk buf count) (hle : n ≤ count) :
    Request bios disk buf n := by
  have hmul := Nat.mul_le_mul_right disk.sectorSize hle
  exact ⟨by have hfits := hreq.fits; omega, fun a hlo hhi => hreq.disjoint a hlo (by omega)⟩

/-- A part of a buffer is below or above 1 MiB as the buffer is. -/
theorem LowOrHigh.le {n : Nat} (hplace : LowOrHigh disk buf count) (hle : n ≤ count) :
    LowOrHigh disk buf n := by
  intro hlow
  have hmul := Nat.mul_le_mul_right disk.sectorSize hle
  exact (Nat.add_le_add_left hmul _).trans (hplace hlow)

/-- The number of bytes of a request is not its number of sectors. -/
theorem u32_mul_sectorSize_ne (hreq : Request bios disk buf count) (hcount : 0 < count) :
    count ≠ u32 (count * disk.sectorSize) := by
  have hfits := hreq.fits
  have hsize : 2 ≤ disk.sectorSize := Nat.pow_le_pow_right (by decide : 0 < 2) disk.shift_pos
  have hmul := Nat.mul_le_mul_left count hsize
  rw [u32]
  omega

/-- The request up to where the EDD calls fail for good. -/
theorem GivesUp.spec {p : Progress} {st₀ : State} (hreq : Request bios disk buf count)
    (hmax : 0 < st.maxtransfer) (h : GivesUp bios disk buf lba count st p st₀) :
    p.Inv bios disk buf (lba + disk.partStart) count st.driver st₀ ∧ 0 < p.count := by
  have hstart : Progress.Inv bios disk buf (lba + disk.partStart) count st.driver _ st :=
    .start hmax
  have hend := eddLoop_spec hreq count hstart le_rfl
  rw [GivesUp] at h
  rw [h] at hend
  exact ⟨hend.inv, hend.failed rfl⟩

/-- When the extended calls fail, the rest is left to the fallback. -/
theorem eddRdwrSectors_givesUp {p : Progress} {st₀ : State}
    (h : GivesUp bios disk buf lba count st p st₀) :
    (eddRdwrSectors bios disk buf lba count st).1 = (fallback bios disk buf p st₀).2.1 ∧
      (eddRdwrSectors bios disk buf lba count st).2.mem =
        (fallback bios disk buf p st₀).2.2.mem ∧
      ((fallback bios disk buf p st₀).2.1 ≠ u32 (p.count * disk.sectorSize) →
        (eddRdwrSectors bios disk buf lba count st).2.driver =
          (fallback bios disk buf p st₀).2.2.driver) := by
  rw [GivesUp] at h
  rw [eddRdwrSectors, h, fallback]
  dsimp only
  split
  · rename_i hsame
    exact ⟨rfl, rfl, fun hne => absurd hsame hne⟩
  · exact ⟨rfl, rfl, fun _ => rfl⟩

/-- A request whose EDD calls do not fail for good. -/
theorem eddRdwrSectors_finished (hreq : Request bios disk buf count) (hmax : 0 < st.maxtransfer)
    (h : ∀ p st₀, ¬GivesUp bios disk buf lba count st p st₀) :
    (eddRdwrSectors bios disk buf lba count st).1 = count ∧
      Holds bios disk (eddRdwrSectors bios disk buf lba count st).2.mem buf
        (lba + disk.partStart) count := by
  have hstart : Progress.Inv bios disk buf (lba + disk.partStart) count st.driver _ st :=
    .start hmax
  have hend := eddLoop_spec hreq count hstart le_rfl
  rcases heq : eddLoop bios disk count ⟨buf, lba + disk.partStart, count, 0⟩ st with ⟨how, p, st'⟩
  rw [heq] at hend
  cases how with
  | failed => exact absurd heq (h p st')
  | finished =>
    have hdone : p.done = count := by
      have hzero := hend.finished rfl
      have hadd := hend.inv.done_add
      dsimp only at hzero hadd
      omega
    rw [eddRdwrSectors, heq]
    exact ⟨hdone, hdone ▸ hend.inv.holds⟩

/-- A request is read as it should be if and only if the EDD calls do not fail for good, or fail
before they read anything and the CHS calls fail as well. For the CHS calls the buffer must not
start low and end behind the first megabyte. -/
theorem transfers_iff_noFallback (bios : Bios) (disk : Disk) (buf lba count : Nat) (st : State)
    (hreq : Request bios disk buf count) (hmax : 0 < st.maxtransfer) (hedd : st.driver = .edd) :
    (NoFallback bios disk buf lba count st ∧
        ((∃ p st₀, GivesUp bios disk buf lba count st p st₀) → LowOrHigh disk buf count) →
      Transfers bios disk buf lba count st) ∧
    (LowOrHigh disk buf count →
      (Transfers bios disk buf lba count st ↔ NoFallback bios disk buf lba count st)) := by
  have htransfers : NoFallback bios disk buf lba count st →
      ((∃ p st₀, GivesUp bios disk buf lba count st p st₀) → LowOrHigh disk buf count) →
      Transfers bios disk buf lba count st := by
    intro hno hplace
    by_cases hex : ∃ p st₀, GivesUp bios disk buf lba count st p st₀
    · obtain ⟨p, st₀, hgives⟩ := hex
      obtain ⟨hdone, hfailed⟩ := hno p st₀ hgives
      obtain ⟨hinv, hpos⟩ := hgives.spec hreq hmax
      obtain ⟨hresult, hmem, -⟩ := eddRdwrSectors_givesUp hgives
      have hle : p.count ≤ count := Nat.le.intro ((Nat.add_comm _ _).trans hinv.done_add)
      obtain ⟨hholds, -, hall, -⟩ := @chsRdwrSectors_spec disk bios buf (p.lba - disk.partStart) p.count
        st₀ (hreq.le hle) ((hplace ⟨p, st₀, hgives⟩).le hle) hinv.maxtransfer_pos hpos
      refine ⟨?_, fun hnever => absurd hgives (hnever p st₀), fun q st₁ hgives' => ?_⟩
      · rw [hresult, hmem]
        have hlba : p.lba - disk.partStart + disk.partStart = lba + disk.partStart := by
          rw [hinv.lba_eq, hdone]
          omega
        rw [hlba] at hholds
        exact hholds
      · obtain ⟨rfl, rfl⟩ : p = q ∧ st₀ = st₁ := by
          have heq := hgives.symm.trans hgives'
          exact Prod.mk.inj (Prod.mk.inj heq).2
        refine ⟨by rw [hresult, hdone, Nat.zero_add], fun hsame => ?_⟩
        exact absurd (hall.mpr hsame) (by rw [fallback] at hfailed; rw [hfailed]; nofun)
    · have hnever : ∀ p st₀, ¬GivesUp bios disk buf lba count st p st₀ :=
        fun p st₀ hgives => hex ⟨p, st₀, hgives⟩
      obtain ⟨hresult, hholds⟩ := eddRdwrSectors_finished hreq hmax hnever
      refine ⟨by rw [hresult]; exact hholds, fun _ => hresult,
        fun p st₀ hgives => absurd hgives (hnever p st₀)⟩
  refine ⟨fun h => htransfers h.1 h.2, fun hplace => ⟨fun h p st₀ hgives => ?_,
    fun hno => htransfers hno fun _ => hplace⟩⟩
  obtain ⟨hinv, hpos⟩ := hgives.spec hreq hmax
  obtain ⟨hresult, -, hdriver⟩ := eddRdwrSectors_givesUp hgives
  obtain ⟨hcounted, hremembered⟩ := h.rest p st₀ hgives
  have hle : p.count ≤ count := Nat.le.intro ((Nat.add_comm _ _).trans hinv.done_add)
  obtain ⟨-, -, hall, hkept⟩ := @chsRdwrSectors_spec disk bios buf (p.lba - disk.partStart) p.count
    st₀ (hreq.le hle) (hplace.le hle) hinv.maxtransfer_pos hpos
  have hdone : p.done = 0 := by omega
  refine ⟨hdone, ?_⟩
  cases hhow : (fallback bios disk buf p st₀).1 with
  | failed => rfl
  | finished =>
    -- the number of sectors is compared with the number of bytes
    have hsame := hall.mp hhow
    have hne : (fallback bios disk buf p st₀).2.1 ≠ u32 (p.count * disk.sectorSize) := by
      rw [fallback, hsame]
      exact u32_mul_sectorSize_ne (hreq.le hle) hpos
    have hchs := (hremembered hsame).2
    rw [hdriver hne, fallback, hkept, hinv.driver_eq, hedd] at hchs
    exact nomatch hchs

/-! ## Two requests -/

/-- A floppy disk. -/
def floppy : Disk :=
  ⟨9, 2, 18, 0, by decide, by decide, by decide, by decide, by decide, by decide⟩

/-- A BIOS whose calls fail in a range. -/
def floppyBios (first last : Nat) : Bios where
  byte n := UInt8.ofNat (n / 512)
  answer n := if first ≤ n ∧ n < last then .error fun _ => 0 else .ok
  xferBuf := 0x20000
  xfer_le := by decide
  xfer_aligned := by decide

def floppyState : State := ⟨fun _ => 0, 0, 1, .edd⟩

/-- Two sectors of a floppy disk. -/
theorem floppy_request (first last : Nat) : Request (floppyBios first last) floppy 0x8000 2 where
  fits := by decide
  disjoint a hlo hhi := by
    have hend : 0x8000 + 2 * floppy.sectorSize = 0x8400 := rfl
    have hxfer : (floppyBios first last).xferBuf = 0x20000 := rfl
    rw [hend] at hhi
    rw [hxfer]
    omega

/-- Two sectors that are read one by one. -/
theorem transfers_iff_noFallback_floppy :
    Transfers (floppyBios 0 0) floppy 0x8000 0 2 floppyState := by
  have hhow : (eddLoop (floppyBios 0 0) floppy 2 ⟨0x8000, 0 + floppy.partStart, 2, 0⟩
      floppyState).1 = .finished := by
    decide +kernel
  have hnever : ∀ p st₀, ¬GivesUp (floppyBios 0 0) floppy 0x8000 0 2 floppyState p st₀ := by
    intro p st₀ h
    rw [GivesUp] at h
    rw [h] at hhow
    exact nomatch hhow
  exact (transfers_iff_noFallback (floppyBios 0 0) floppy 0x8000 0 2 floppyState
    (floppy_request 0 0) (by decide) rfl).1
    ⟨fun p st₀ h => absurd h (hnever p st₀), fun ⟨p, st₀, h⟩ => absurd h (hnever p st₀)⟩

/-- The EDD calls fail for good at the second of two sectors: the fallback reads it over the first
one and counts one sector. -/
theorem fallback_not_transfers : ¬∀ bios disk buf lba count st, Request bios disk buf count →
    0 < st.maxtransfer → st.driver = .edd → Transfers bios disk buf lba count st := by
  intro h
  have htransfers := h (floppyBios 1 8) floppy 0x8000 0 2 floppyState (floppy_request 1 8)
    (by decide) rfl
  have hhow : (eddLoop (floppyBios 1 8) floppy 2 ⟨0x8000, 0 + floppy.partStart, 2, 0⟩
      floppyState).1 = .failed := by
    decide +kernel
  have hp : (eddLoop (floppyBios 1 8) floppy 2 ⟨0x8000, 0 + floppy.partStart, 2, 0⟩
      floppyState).2.1 = ⟨0x8200, 1, 1, 1⟩ := by
    decide +kernel
  have hgives : GivesUp (floppyBios 1 8) floppy 0x8000 0 2 floppyState ⟨0x8200, 1, 1, 1⟩
      (eddLoop (floppyBios 1 8) floppy 2 ⟨0x8000, 0 + floppy.partStart, 2, 0⟩ floppyState).2.2 :=
    Prod.ext hhow (Prod.ext hp rfl)
  have hcounted := (htransfers.rest _ _ hgives).1
  have hresult : (eddRdwrSectors (floppyBios 1 8) floppy 0x8000 0 2 floppyState).1 = 1 := by
    decide +kernel
  have hrest : (fallback (floppyBios 1 8) floppy 0x8000 ⟨0x8200, 1, 1, 1⟩
      (eddLoop (floppyBios 1 8) floppy 2 ⟨0x8000, 0 + floppy.partStart, 2, 0⟩
        floppyState).2.2).2.1 = 1 := by
    decide +kernel
  rw [hresult, hrest] at hcounted
  exact nomatch hcounted

end Liigboot.Fs.DiskIo
