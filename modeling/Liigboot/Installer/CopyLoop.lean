import Liigboot.Installer.Install

/-!
# Where the copy loop writes

The scan of the partition table yields the smallest `lba_first` of a non-empty
entry. The copy loop compares every chunk with it as if the chunk started at
sector 0, because the running sector number stays 0: each write is placed by
the file position alone. What a run hands to `write` is therefore exactly what
the source delivers, and the partitions are safe exactly when that ends early enough.
-/

namespace Liigboot.Installer

/-! ## The scan -/

/-- Looking at an entry does not raise the least start. -/
theorem scanPte_le (m : Nat) (e : Pte) : scanPte m e ≤ m := by
  unfold scanPte
  split <;> omega

/-- Nor does looking at several. -/
theorem foldl_scanPte_le (es : List Pte) (m : Nat) : es.foldl scanPte m ≤ m := by
  induction es generalizing m with
  | nil => exact le_rfl
  | cons e es ih => exact (ih _).trans (scanPte_le m e)

/-- The least start is not behind a partition that was looked at. -/
theorem foldl_scanPte_le_of_mem {es : List Pte} {e : Pte} (he : e ∈ es) (ht : e.type ≠ 0)
    (m : Nat) : es.foldl scanPte m ≤ e.lbaFirst := by
  induction es generalizing m with
  | nil => exact absurd he List.not_mem_nil
  | cons x es ih =>
    rcases List.mem_cons.mp he with rfl | hmem
    · have hx : scanPte m e ≤ e.lbaFirst := by
        unfold scanPte
        split
        · exact le_rfl
        · next h => exact Nat.le_of_not_lt fun hlt => h ⟨ht, hlt⟩
      exact (foldl_scanPte_le es _).trans hx
    · exact ih hmem _

/-- The least start is the one at first, or that of a partition. -/
theorem foldl_scanPte_eq (es : List Pte) (m : Nat) :
    es.foldl scanPte m = m ∨ ∃ e ∈ es, e.type ≠ 0 ∧ es.foldl scanPte m = e.lbaFirst := by
  induction es generalizing m with
  | nil => exact Or.inl rfl
  | cons x es ih =>
    rcases ih (scanPte m x) with h | ⟨e, he, ht, h⟩
    · by_cases hx : x.type ≠ 0 ∧ x.lbaFirst < m
      · exact Or.inr ⟨x, List.mem_cons_self .., hx.1, by
          rw [List.foldl_cons, h, scanPte, if_pos hx]⟩
      · exact Or.inl (by rw [List.foldl_cons, h, scanPte, if_neg hx])
    · exact Or.inr ⟨e, List.mem_cons_of_mem _ he, ht, h⟩

/-- The target's partition entries that are not empty. -/
def partitions (mbr : List UInt8) : List Pte := (ptes mbr).filter fun e => e.type ≠ 0

/-- The partitions are the entries of a type. -/
theorem mem_partitions {mbr : List UInt8} {e : Pte} :
    e ∈ partitions mbr ↔ e ∈ ptes mbr ∧ e.type ≠ 0 := by
  simp only [partitions, List.mem_filter, decide_eq_true_eq]

/-- No partition starts in front of the least start. -/
theorem lbaFirstMin_le {mbr : List UInt8} {e : Pte} (he : e ∈ partitions mbr) :
    lbaFirstMin mbr ≤ e.lbaFirst :=
  foldl_scanPte_le_of_mem (mem_partitions.mp he).1 (mem_partitions.mp he).2 _

/-- The scan ends on a real entry, or on the all-ones start value of an empty table. -/
theorem lbaFirstMin_eq (mbr : List UInt8) :
    lbaFirstMin mbr = 2 ^ 32 - 1 ∨ ∃ e ∈ partitions mbr, lbaFirstMin mbr = e.lbaFirst := by
  rcases foldl_scanPte_eq (ptes mbr) (2 ^ 32 - 1) with h | ⟨e, he, ht, h⟩
  · exact Or.inl h
  · exact Or.inr ⟨e, mem_partitions.mpr ⟨he, ht⟩, h⟩

/-! ## The merged table is the target's -/

/-- The first piece of the source is at the start of the buffer. -/
theorem getElem?_firstFill {size : Nat} {bytes : List UInt8} {i : Nat} (hi : i < bytes.length) :
    (firstFill size bytes)[i]? = bytes[i]? := by
  rw [firstFill, fill, getElem?_blit (Nat.zero_le _), if_neg (by omega), if_pos (by omega),
    Nat.sub_zero]

theorem length_firstFill {size : Nat} {bytes : List UInt8} (h : bytes.length ≤ size) :
    (firstFill size bytes).length = size := by
  rw [firstFill, fill, length_blit (by simpa using h), List.length_replicate]

theorem length_fill {buf bytes : List UInt8} (h : bytes.length ≤ buf.length) :
    (fill buf bytes).length = buf.length := length_blit (by omega)

/-- The bytes of the table come from the disk, the others from the source. -/
theorem getElem?_copyTable {buf oldmbr : List UInt8} (hb : 0x1fe ≤ buf.length)
    (ho : 0x1fe ≤ oldmbr.length) (i : Nat) : (copyTable buf oldmbr)[i]? =
      if 0x1b8 ≤ i ∧ i < 0x1fe then oldmbr[i]? else buf[i]? := by
  rw [copyTable, getElem?_blit (by omega), length_slice, getElem?_slice]
  by_cases h1 : i < 0x1b8
  · rw [if_pos h1, if_neg (by omega)]
  · rw [if_neg h1]
    by_cases h2 : i < 0x1fe
    · rw [if_pos (by omega), if_pos (by omega), if_pos (by omega),
        Nat.add_sub_cancel' (Nat.le_of_not_lt h1)]
    · rw [if_neg (by omega), if_neg (by omega)]

theorem length_copyTable {buf oldmbr : List UInt8} (hb : 0x1fe ≤ buf.length) :
    (copyTable buf oldmbr).length = buf.length := by
  apply length_blit
  rw [length_slice]
  omega

/-- Buffers that agree on the table hold the same four entries. -/
theorem ptes_congr (xs ys : List UInt8)
    (h : ∀ i, 0x1be ≤ i → i < 0x1fe → xs[i]? = ys[i]?) : ptes xs = ptes ys := by
  apply List.map_congr_left
  intro i hi
  have hi4 : i < 4 := List.mem_range.mp hi
  have hd : ∀ j, 0x1be ≤ j → j < 0x1fe → xs.getD j 0 = ys.getD j 0 := by
    intro j hlo hhi
    rw [List.getD_eq_getElem?_getD, List.getD_eq_getElem?_getD, h j hlo hhi]
  rw [pteAt, pteAt, hd _ (by omega) (by omega), hd _ (by omega) (by omega),
    readLe_congr xs ys fun j hj => h _ (by omega) (by omega)]

/-! ## Which chunks are written -/

/-- The source delivers `chunk` as its `i`-th: every read before it filled the buffer and
every write before it went through. -/
def Delivers (sys : Sys) (i : Nat) (chunk : List UInt8) : Prop :=
  sys.readSource i = some chunk ∧ chunk ≠ [] ∧
    ∀ j < i, (∃ b, sys.readSource j = some b ∧ b.length = bufSize) ∧ bufSize ≤ sys.writeTarget j

/-- The buffer and the counters at the head of round `k` of the loop. -/
structure Rounds (sys : Sys) (k pos : Nat) (buf bytes : List UInt8) : Prop where
  /-- The round works on the `k`-th chunk of the source. -/
  read : sys.readSource k = some bytes
  full : ∀ j < k, (∃ b, sys.readSource j = some b ∧ b.length = bufSize) ∧
    bufSize ≤ sys.writeTarget j
  pos_eq : pos = bufSize * k
  length_buf : buf.length = bufSize

/-- A round with bytes has them from the source. -/
theorem Rounds.delivers {sys : Sys} {k pos : Nat} {buf bytes : List UInt8}
    (h : Rounds sys k pos buf bytes) (hne : bytes ≠ []) : Delivers sys k bytes :=
  ⟨h.read, hne, h.full⟩

/-- A full round that is written and followed by another read keeps the counters. -/
theorem Rounds.next {sys : Sys} {k pos : Nat} {buf bytes next : List UInt8}
    (h : Rounds sys k pos buf bytes) (hfull : bytes.length = bufSize)
    (hw : (sys.write k pos buf).taken = bufSize) (hr : sys.readSource (k + 1) = some next) :
    Rounds sys (k + 1) (pos + (sys.write k pos buf).taken) (fill buf next) next where
  read := hr
  full := by
    intro j hj
    by_cases he : j = k
    · subst he
      have hle : bufSize ≤ sys.writeTarget j := by
        simp only [Sys.write] at hw
        omega
      exact ⟨⟨bytes, h.read, hfull⟩, hle⟩
    · exact h.full j (by omega)
  pos_eq := by rw [hw, h.pos_eq, Nat.mul_succ]
  length_buf := by
    rw [length_fill (by rw [h.length_buf]; exact sys.readSource_le _ _ hr), h.length_buf]

/-- A piece has eight sectors at most. -/
theorem sectorsOf_le {n : Nat} (h : n ≤ bufSize) : sectorsOf n ≤ 8 := by
  unfold sectorsOf bufSize at *
  omega

/-- A full piece has eight. -/
theorem sectorsOf_bufSize : sectorsOf bufSize = 8 := rfl

/-- With the sector number at 0 the check of a round compares the chunk's own length. -/
theorem check_eq {n : Nat} (h : n ≤ bufSize) : (0 + sectorsOf n) % 2 ^ 32 = sectorsOf n := by
  have := sectorsOf_le h
  omega

/-! ### One round of the loop -/

/-- A short chunk that passes the check is the last one. -/
theorem copyLoop_last {sys : Sys} {m fuel k pos got : Nat} {buf : List UInt8} (h0 : got ≠ 0)
    (hchk : sectorsOf got ≤ m) (hlast : got < bufSize)
    (hw : (sys.write k pos (buf.take (sectorsOf got * 512))).taken = sectorsOf got * 512) :
    copyLoop sys 0 m (fuel + 1) k pos buf got =
      ⟨.returned, [sys.write k pos (buf.take (sectorsOf got * 512))]⟩ := by
  rw [copyLoop, check_eq hlast.le, if_neg h0, if_neg hchk.not_gt, if_pos hlast]
  simp only [hw, ne_eq, not_true_eq_false, if_false]

/-- A whole buffer that passes the check and is written is followed by the next read. -/
theorem copyLoop_full {sys : Sys} {m fuel k pos : Nat} {buf next : List UInt8} (hm : 8 ≤ m)
    (hw : (sys.write k pos buf).taken = bufSize) (hr : sys.readSource (k + 1) = some next) :
    copyLoop sys 0 m (fuel + 1) k pos buf bufSize =
      (copyLoop sys 0 m fuel (k + 1) (pos + bufSize) (fill buf next) next.length).after
        (sys.write k pos buf) := by
  have hchk : ¬ sectorsOf bufSize > m := by rw [sectorsOf_bufSize]; omega
  rw [copyLoop, check_eq le_rfl, if_neg (by decide), if_neg hchk, if_neg (lt_irrefl _)]
  simp only [hw, hr, ne_eq, not_true_eq_false, if_false]

/-- Every write of the loop is a delivered chunk, at the position its number gives, and it
passed the check. From the second chunk on, a whole buffer has passed it. -/
theorem copyLoop_writes {sys : Sys} {m : Nat} (fuel : Nat) {k pos : Nat} {buf bytes : List UInt8}
    (h : Rounds sys k pos buf bytes) :
    ∀ w ∈ (copyLoop sys 0 m fuel k pos buf bytes.length).writes, ∃ i chunk,
      Delivers sys i chunk ∧ w.pos = bufSize * i ∧ w.data.length = sectorsOf chunk.length * 512 ∧
        sectorsOf chunk.length ≤ m ∧ (i = k ∨ k < i ∧ 8 ≤ m) := by
  induction fuel generalizing k pos buf bytes with
  | zero => intro w hw; exact absurd hw List.not_mem_nil
  | succ fuel ih =>
    have hle := sys.readSource_le _ _ h.read
    intro w hw
    rw [copyLoop, check_eq hle] at hw
    by_cases h0 : bytes.length = 0
    · simp only [h0, if_true, List.not_mem_nil] at hw
    by_cases hchk : sectorsOf bytes.length > m
    · simp only [h0, hchk, if_true, if_false, List.not_mem_nil] at hw
    have hd := h.delivers (fun he => h0 (by rw [he, List.length_nil]))
    simp only [h0, hchk, if_false] at hw
    by_cases hlast : bytes.length < bufSize
    · simp only [hlast, if_true] at hw
      have hlen : sectorsOf bytes.length * 512 ≤ bufSize := by
        unfold sectorsOf bufSize at *
        omega
      have hw' : w = sys.write k pos (buf.take (sectorsOf bytes.length * 512)) := by
        split at hw <;> exact List.mem_singleton.mp hw
      subst hw'
      refine ⟨k, bytes, hd, h.pos_eq, ?_, by omega, Or.inl rfl⟩
      simp only [Sys.write, List.length_take, h.length_buf]
      omega
    · simp only [hlast, if_false] at hw
      have hfull : bytes.length = bufSize := by omega
      have hm : 8 ≤ m := by rw [hfull, sectorsOf_bufSize] at hchk; omega
      have hthis : w = sys.write k pos buf → ∃ i chunk,
          Delivers sys i chunk ∧ w.pos = bufSize * i ∧
            w.data.length = sectorsOf chunk.length * 512 ∧ sectorsOf chunk.length ≤ m ∧
            (i = k ∨ k < i ∧ 8 ≤ m) := by
        rintro rfl
        refine ⟨k, bytes, hd, h.pos_eq, ?_, by omega, Or.inl rfl⟩
        simp only [Sys.write, h.length_buf, hfull, sectorsOf_bufSize]
        rfl
      split at hw
      · exact hthis (List.mem_singleton.mp hw)
      · next hok =>
        have htaken : (sys.write k pos buf).taken = bufSize := by simpa using hok
        cases hr : sys.readSource (k + 1) with
        | none =>
          simp only [hr] at hw
          exact hthis (List.mem_singleton.mp hw)
        | some next =>
          simp only [hr, Run.after_writes, List.mem_cons] at hw
          rcases hw with hw | hw
          · exact hthis hw
          · obtain ⟨i, chunk, h1, h2, h3, h4, h5⟩ := ih (h.next hfull htaken hr) w hw
            exact ⟨i, chunk, h1, h2, h3, h4, Or.inr ⟨by omega, hm⟩⟩

/-- When a whole buffer passes the check, the loop reaches every delivered chunk. -/
theorem copyLoop_complete {sys : Sys} {m : Nat} (hm : 8 ≤ m) {i : Nat} {chunk : List UInt8}
    (hd : Delivers sys i chunk) : ∀ (d : Nat) {k pos : Nat} {buf bytes : List UInt8},
    k + d = i → Rounds sys k pos buf bytes →
    ∃ fuel, ∃ w ∈ (copyLoop sys 0 m fuel k pos buf bytes.length).writes,
      w.pos = bufSize * i ∧ w.data.length = sectorsOf chunk.length * 512 := by
  intro d
  induction d with
  | zero =>
    intro k pos buf bytes hk h
    have hki : k = i := by omega
    subst hki
    have hb : bytes = chunk := Option.some.inj (h.read.symm.trans hd.1)
    subst hb
    have hle := sys.readSource_le _ _ h.read
    have h0 : bytes.length ≠ 0 := fun he => hd.2.1 (List.length_eq_zero_iff.mp he)
    have hchk : ¬ sectorsOf bytes.length > m := by have := sectorsOf_le hle; omega
    by_cases hlast : bytes.length < bufSize
    · refine ⟨1, sys.write k pos (buf.take (sectorsOf bytes.length * 512)), ?_, h.pos_eq, ?_⟩
      · rw [copyLoop, check_eq hle]
        simp only [h0, hchk, hlast, if_true, if_false]
        split <;> exact List.mem_singleton_self _
      · simp only [Sys.write, List.length_take, h.length_buf]
        unfold sectorsOf bufSize at *
        omega
    · have hfull : bytes.length = bufSize := by omega
      refine ⟨1, sys.write k pos buf, ?_, h.pos_eq, ?_⟩
      · rw [copyLoop, check_eq hle]
        simp only [h0, hchk, hlast, if_false]
        split
        · exact List.mem_singleton_self _
        · cases hr : sys.readSource (k + 1) with
          | none => exact List.mem_singleton_self _
          | some next => exact List.mem_cons_self ..
      · simp only [Sys.write, h.length_buf, hfull, sectorsOf_bufSize]
        rfl
  | succ d ih =>
    intro k pos buf bytes hk h
    obtain ⟨⟨b, hb, hfull⟩, hw⟩ := hd.2.2 k (by omega)
    have hbb : b = bytes := Option.some.inj (hb.symm.trans h.read)
    subst hbb
    have hnext : ∃ next, sys.readSource (k + 1) = some next := by
      by_cases he : k + 1 = i
      · exact ⟨chunk, he ▸ hd.1⟩
      · obtain ⟨⟨next, hn, _⟩, _⟩ := hd.2.2 (k + 1) (by omega)
        exact ⟨next, hn⟩
    obtain ⟨next, hr⟩ := hnext
    have htaken : (sys.write k pos buf).taken = bufSize := by
      simp only [Sys.write, h.length_buf]
      omega
    obtain ⟨fuel, w, hmem, hpos, hlen⟩ := ih (by omega) (h.next hfull htaken hr)
    refine ⟨fuel + 1, w, ?_, hpos, hlen⟩
    rw [htaken] at hmem
    rw [hfull, copyLoop_full hm htaken hr, Run.after_writes]
    exact List.mem_cons_of_mem _ hmem

/-! ## Safety of the partitions -/

/-- No chunk handed to `write` reaches the first sector of a partition. -/
def BeforePartitions (mbr : List UInt8) (r : Run) : Prop :=
  ∀ w ∈ r.writes, ∀ e ∈ partitions mbr, w.sector + w.sectors ≤ e.lbaFirst

instance (mbr : List UInt8) (r : Run) : Decidable (BeforePartitions mbr r) :=
  inferInstanceAs (Decidable (∀ w ∈ r.writes, ∀ e ∈ partitions mbr, _))

/-- Everything the source delivers, chunk after chunk, ends before every partition. -/
def SourceFits (sys : Sys) (mbr : List UInt8) : Prop :=
  ∀ i chunk, Delivers sys i chunk → ∀ e ∈ partitions mbr, 8 * i + sectorsOf chunk.length ≤ e.lbaFirst

/-! ## What the checks before the loop leave -/

theorem firstFill_self {size : Nat} {bytes : List UInt8} (h : bytes.length = size) :
    firstFill size bytes = bytes := by
  subst h
  rw [firstFill, fill, blit, List.take_zero, List.nil_append, Nat.zero_add,
    List.drop_of_length_le (by rw [List.length_replicate]), List.append_nil]

@[simp] theorem length_clearActive (buf : List UInt8) (i : Nat) :
    (clearActive buf i).length = buf.length := List.length_modify ..

@[simp] theorem length_setActive (buf : List UInt8) (n : Nat) :
    (setActive buf n).length = buf.length := by
  unfold setActive
  split <;> simp only [List.length_modify, length_clearActive]

/-- A first piece that is accepted has a boot sector with its signature. -/
theorem readFirst_ok {sys : Sys} {buf : List UInt8} {got : Nat}
    (h : readFirst sys = .ok (buf, got)) :
    ∃ bytes, sys.readSource 0 = some bytes ∧ buf = firstFill bufSize bytes ∧ got = bytes.length ∧
      512 ≤ bytes.length ∧ hasSignature (firstFill bufSize bytes) = true := by
  unfold readFirst at h
  split at h
  · cases h
  · cases hr : sys.readSource 0 with
    | none => simp only [hr] at h; cases h
    | some bytes =>
      simp only [hr] at h
      split at h
      · cases h
      · split at h
        · cases h
        · next hlen hsig =>
          cases h
          exact ⟨bytes, rfl, rfl, rfl, by omega, by simpa using hsig⟩

/-- A merge that succeeds found an empty target, a signed first sector whose partitions pass
the check on the announced size, or a blank one. -/
theorem mergeTarget_ok {sys : Sys} {buf buf' : List UInt8} {m : Nat}
    (h : mergeTarget sys buf = .ok (buf', m)) :
    (sys.readTarget = some [] ∧ buf' = buf ∧ m = 2 ^ 32 - 1) ∨
    (∃ old, sys.readTarget = some old ∧ old.length = 512 ∧ hasSignature old = true ∧
      buf' = copyTable buf old ∧ m = lbaFirstMin buf' ∧
      ∃ size, sys.statSource = some size ∧ (size + 511) / 512 % 2 ^ 32 ≤ m) ∨
    (∃ old, sys.readTarget = some old ∧ old.length = 512 ∧ hasSignature old = false ∧
      buf' = buf ∧ m = 2 ^ 32 - 1) := by
  unfold mergeTarget at h
  split at h
  · cases h
  · split at h
    · cases h
    · next old ho =>
      split at h
      · next h0 =>
        cases h
        exact Or.inl ⟨by rw [ho, List.length_eq_zero_iff.mp h0], rfl, rfl⟩
      · split at h
        · cases h
        · next h512 =>
          have hlen : old.length = 512 := by
            have := sys.readTarget_le _ ho
            omega
          rw [firstFill_self hlen] at h
          split at h
          · cases h
          · right
            by_cases hs : hasSignature old = true
            · left
              simp only [hs, if_true, mergeTable] at h
              split at h
              · cases h
              · next size hsize =>
                split at h
                · cases h
                · next hcnt =>
                  cases h
                  exact ⟨old, ho, hlen, hs, rfl, rfl, size, hsize, by omega⟩
            · right
              simp only [hs, Bool.false_eq_true, if_false] at h
              split at h
              · cases h
              · cases h
                exact ⟨old, ho, hlen, by simpa using hs, rfl, rfl⟩

/-- The number of the partition to activate, as `install` corrects it. -/
def activeNumber (a : UInt8) : Nat := if a.toNat > 4 then 0 else a.toNat

/-- A run that gets to the copying has an accepted first piece and a merged table. -/
theorem prepare_ok {sys : Sys} {a : UInt8} {p : Prepared} (h : prepare sys a = .ok p) :
    ∃ bytes buf, sys.readSource 0 = some bytes ∧ 512 ≤ bytes.length ∧
      hasSignature (firstFill bufSize bytes) = true ∧
      mergeTarget sys (firstFill bufSize bytes) = .ok (buf, p.lbaFirstMin) ∧
      p = ⟨setActive buf (activeNumber a), bytes.length, p.lbaFirstMin⟩ := by
  unfold prepare at h
  cases hf : readFirst sys with
  | error msg => simp only [hf] at h; cases h
  | ok first =>
    obtain ⟨buf, got⟩ := first
    obtain ⟨bytes, hr, rfl, rfl, hlen, hsig⟩ := readFirst_ok hf
    cases hm : mergeTarget sys (firstFill bufSize bytes) with
    | error msg => simp only [hf, hm] at h; cases h
    | ok merged =>
      obtain ⟨buf', m⟩ := merged
      simp only [hf, hm] at h
      cases h
      exact ⟨bytes, buf', hr, hlen, hsig, hm, rfl⟩

/-- What the copy loop starts from, for a target with a signed first sector. -/
theorem prepare_signed {sys : Sys} {a : UInt8} {mbr : List UInt8} {p : Prepared}
    (ht : sys.readTarget = some mbr) (hs : hasSignature mbr = true) (hp : prepare sys a = .ok p) :
    ∃ bytes, Rounds sys 0 0 p.buf bytes ∧ p.got = bytes.length ∧ p.lbaFirstMin = lbaFirstMin mbr := by
  obtain ⟨bytes, buf, hr, -, -, hm, hp⟩ := prepare_ok hp
  have hlen : (firstFill bufSize bytes).length = bufSize :=
    length_firstFill (sys.readSource_le _ _ hr)
  rcases mergeTarget_ok hm with ⟨hempty, -⟩ | ⟨old, ho, h512, -, rfl, hmin, -⟩ | ⟨old, ho, -, hns, -⟩
  · rw [Option.some.inj (ht.symm.trans hempty)] at hs
    exact absurd hs (by decide)
  · obtain rfl : old = mbr := Option.some.inj (ho.symm.trans ht)
    refine ⟨bytes, ⟨hr, fun j hj => absurd hj (Nat.not_lt_zero j), rfl, ?_⟩, ?_, ?_⟩
    · rw [hp, length_setActive, length_copyTable (by rw [hlen]; decide), hlen]
    · rw [hp]
    · have hbuf : 0x1fe ≤ (firstFill bufSize bytes).length := by rw [hlen]; decide
      rw [hp, hmin, lbaFirstMin, lbaFirstMin, ptes_congr _ old fun i hlo hhi => by
        rw [getElem?_copyTable hbuf (by omega), if_pos (by omega)]]
  · rw [Option.some.inj (ho.symm.trans ht), hs] at hns
    exact absurd hns (by decide)

/-- In every run over a target with a signed first sector that passes the checks before the
loop, the writes stay in front of all partitions if and only if the source ends early enough,
or some partition starts so early that the very first whole chunk is refused. -/
theorem install_beforePartitions_iff (sys : Sys) (a : UInt8) (mbr : List UInt8)
    (ht : sys.readTarget = some mbr) (hs : hasSignature mbr = true)
    (hp : (prepare sys a).isOk = true) :
    (∀ fuel, BeforePartitions mbr (install sys a fuel)) ↔
      (∃ e ∈ partitions mbr, e.lbaFirst < 8) ∨ SourceFits sys mbr := by
  obtain ⟨p, hp⟩ : ∃ p, prepare sys a = .ok p := by
    cases h : prepare sys a with
    | error msg => rw [h] at hp; exact absurd hp Bool.false_ne_true
    | ok p => exact ⟨p, rfl⟩
  obtain ⟨bytes, hround, hgot, hmin⟩ := prepare_signed ht hs hp
  have hrun : ∀ fuel, install sys a fuel =
      copyLoop sys 0 (lbaFirstMin mbr) fuel 0 0 p.buf bytes.length := by
    intro fuel
    simp only [install, hp, hgot, hmin]
  simp only [hrun]
  constructor
  · intro h
    by_cases hsmall : ∃ e ∈ partitions mbr, e.lbaFirst < 8
    · exact Or.inl hsmall
    · right
      intro i chunk hd e he
      have hm : 8 ≤ lbaFirstMin mbr := by
        rcases lbaFirstMin_eq mbr with hall | ⟨e', he', hmin'⟩
        · omega
        · have hge : ¬ e'.lbaFirst < 8 := fun hlt => hsmall ⟨e', he', hlt⟩
          omega
      obtain ⟨fuel, w, hw, hpos, hlen⟩ := copyLoop_complete hm hd i (Nat.zero_add i) hround
      have hle := h fuel w hw e he
      simp only [Write.sector, Write.sectors, hpos, hlen] at hle
      unfold bufSize at hle
      omega
  · intro h fuel w hw e he
    obtain ⟨i, chunk, hd, hpos, hlen, hchk, hi⟩ := copyLoop_writes fuel hround w hw
    have hmine := lbaFirstMin_le he
    simp only [Write.sector, Write.sectors, hpos, hlen]
    unfold bufSize
    rcases h with ⟨e', he', hlt⟩ | hfits
    · have := lbaFirstMin_le he'
      omega
    · have := hfits i chunk hd e he
      omega

/-- A source device whose `st_size` is 0, with two chunks of data. -/
def overrunSource : List UInt8 :=
  List.replicate 510 0 ++ [0x55, 0xaa] ++ List.replicate (2 * bufSize - 512) 0

/-- A first sector with one partition, at sector 8. -/
def overrunMbr : List UInt8 :=
  List.replicate 0x1be 0 ++ [0, 0, 0, 0, 0x83, 0, 0, 0, 8, 0, 0, 0, 0, 8, 0, 0] ++
    List.replicate 48 0 ++ [0x55, 0xaa]

/-- The second chunk of such a source overwrites the partition's first eight sectors. -/
theorem install_overruns_partition :
    (deviceSys overrunSource overrunMbr).readTarget = some overrunMbr ∧
      hasSignature overrunMbr = true ∧
      (prepare (deviceSys overrunSource overrunMbr) 0).isOk = true ∧
      ¬ BeforePartitions overrunMbr (install (deviceSys overrunSource overrunMbr) 0 3) := by
  decide +kernel

/-- The equivalence at a device that ends after its first chunk. -/
theorem install_beforePartitions_oneChunk :
    (∀ fuel, BeforePartitions overrunMbr
      (install (deviceSys (overrunSource.take bufSize) overrunMbr) 0 fuel)) ↔
      (∃ e ∈ partitions overrunMbr, e.lbaFirst < 8) ∨
        SourceFits (deviceSys (overrunSource.take bufSize) overrunMbr) overrunMbr :=
  install_beforePartitions_iff _ _ _ (by decide +kernel) (by decide +kernel) (by decide +kernel)

end Liigboot.Installer
