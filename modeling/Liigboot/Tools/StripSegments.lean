import Liigboot.Tools.StripElf32

/-!
# What a stripped executable maps

A segment of a stripped executable maps what it did, unless the strip fails. It fails at a segment
that is trimmed past its own start, because the scan stops only at the headers, and at one that
cannot be moved to the headers.
-/

namespace Liigboot.Tools

variable {udata out : List UInt8} {headerSize k : Nat} {phdr p q : Phdr Nat}

/-! ## When a segment can be stripped -/

/-- A segment that starts behind the headers has a byte that is not zero, in it or right in front
of it, and one that is moved to the headers has numbers that allow it. -/
structure Keepable (udata : List UInt8) (headerSize : Nat) (phdr : Phdr Nat) : Prop where
  nonzero : headerSize < phdr.pOffset → ∃ i b, phdr.pOffset ≤ i + 1 ∧
    i < phdr.pOffset + phdr.pFilesz ∧ udata[i]? = some b ∧ b ≠ 0
  base : phdr.isRebased headerSize = true → headerSize ≤ phdr.pPaddr ∧
    phdr.pMemsz + headerSize < 2 ^ 32 ∧
    ∀ i, 2 ^ 32 ≤ i + 1 → i < phdr.pOffset + phdr.pFilesz → udata[i]? = some 0

theorem pack_isOk_iff (phdr : Phdr Int) :
    (∃ bytes, phdr.pack = .ok bytes) ↔ ∀ v ∈ phdr.values, 0 ≤ v ∧ v < 2 ^ 32 := by
  constructor
  · rintro ⟨bytes, h⟩
    exact (Phdr.pack_ok h).1
  · intro h
    exact ⟨_, if_pos h⟩

/-- The fields of a program header have 32 bits. -/
theorem parse_lt (data : List UInt8) (i : Nat) : ∀ v ∈ (Phdr.parse data i).values, v < 2 ^ 32 := by
  intro v hv
  simp only [Phdr.values, Phdr.parse, List.mem_cons, List.not_mem_nil, or_false] at hv
  rcases hv with rfl | rfl | rfl | rfl | rfl | rfl | rfl | rfl <;> exact readLe_lt data _ 4

theorem values_rebase_fit (hlt : ∀ v ∈ phdr.values, v < 2 ^ 32)
    (hbase : phdr.isRebased headerSize = true) (k : Nat) :
    (∀ v ∈ ((phdr.rebase headerSize).trimTo k).values, 0 ≤ v ∧ v < 2 ^ 32) ↔
      headerSize ≤ phdr.pPaddr ∧ phdr.pMemsz + headerSize < 2 ^ 32 ∧ k < 2 ^ 32 := by
  obtain ⟨-, hvaddr, -⟩ := pOffset_of_isRebased hbase
  simp only [Phdr.values, List.forall_mem_cons] at hlt
  rw [Phdr.rebase, if_pos hbase]
  simp only [Phdr.values, Phdr.trimTo, Phdr.map, List.forall_mem_cons, List.not_mem_nil,
    Int.ofNat_eq_natCast, false_implies, implies_true, and_true]
  omega

theorem values_trim_fit (hlt : ∀ v ∈ phdr.values, v < 2 ^ 32)
    (hbase : phdr.isRebased headerSize = false) {k : Nat} (hk : k ≤ phdr.pOffset + phdr.pFilesz) :
    (∀ v ∈ ((phdr.rebase headerSize).trimTo k).values, 0 ≤ v ∧ v < 2 ^ 32) ↔
      phdr.pOffset ≤ k := by
  simp only [Phdr.values, List.forall_mem_cons] at hlt
  rw [Phdr.rebase, if_neg (by rw [hbase]; decide)]
  simp only [Phdr.values, Phdr.trimTo, Phdr.map, List.forall_mem_cons, List.not_mem_nil,
    Int.ofNat_eq_natCast, false_implies, implies_true, and_true]
  omega

/-- A segment that is not moved is trimmed past its start only when it and the byte in front of it
are zeros. -/
private theorem start_le_iff (hbase : phdr.isRebased headerSize = false)
    (ht : Trimmed udata (min (phdr.startOfs headerSize) headerSize)
      (phdr.pOffset + phdr.pFilesz) k) :
    phdr.pOffset ≤ k ↔ (headerSize < phdr.pOffset → ∃ i b, phdr.pOffset ≤ i + 1 ∧
      i < phdr.pOffset + phdr.pFilesz ∧ udata[i]? = some b ∧ b ≠ 0) := by
  have hstart : phdr.startOfs headerSize = phdr.pOffset := by
    rw [Phdr.startOfs, if_neg (by rw [hbase]; decide)]
  obtain ⟨hle, hstop, hzeros, hlast⟩ := ht
  rw [hstart] at hstop hlast
  constructor
  · intro hk hlt
    obtain ⟨b, hb, hne⟩ := hlast (by omega)
    exact ⟨k - 1, b, by omega, by omega, hb, hne⟩
  · intro h
    by_cases hlt : headerSize < phdr.pOffset
    · obtain ⟨i, b, hlo, hhi, hb, hne⟩ := h hlt
      by_contra hk
      have hzero := hzeros i (by omega) hhi
      exact hne (Option.some.inj (hb.symm.trans hzero))
    · omega

/-- The end of a segment is below `2 ^ 32` unless a byte behind that is not zero. -/
private theorem end_lt_iff (hbase : phdr.isRebased headerSize = true)
    (ht : Trimmed udata (min (phdr.startOfs headerSize) headerSize)
      (phdr.pOffset + phdr.pFilesz) k) :
    k < 2 ^ 32 ↔ ∀ i, 2 ^ 32 ≤ i + 1 → i < phdr.pOffset + phdr.pFilesz → udata[i]? = some 0 := by
  have hstart : phdr.startOfs headerSize = 0 := if_pos hbase
  obtain ⟨hle, -, hzeros, hlast⟩ := ht
  rw [hstart, Nat.zero_min] at hlast
  constructor
  · intro hk i hlo hhi
    exact hzeros i (by omega) hhi
  · intro h
    by_contra hk
    obtain ⟨b, hb, hne⟩ := hlast (by omega)
    have hzero := h (k - 1) (by omega) (by omega)
    exact hne (Option.some.inj (hb.symm.trans hzero))

/-- Inside the file, the round for a segment succeeds if and only if the segment allows it. -/
theorem stripPhdr_isOk_iff (hlt : ∀ v ∈ phdr.values, v < 2 ^ 32)
    (hin : phdr.pOffset + phdr.pFilesz ≤ udata.length) :
    (∃ r, stripPhdr udata headerSize phdr = .ok r) ↔ Keepable udata headerSize phdr := by
  obtain ⟨k, hk⟩ := @trimZeros_isOk udata (min (phdr.startOfs headerSize) headerSize) _ hin
  have ht := trimZeros_ok hk
  have hpack := pack_isOk_iff ((phdr.rebase headerSize).trimTo k)
  rw [stripPhdr_eq, hk]
  dsimp only
  cases hbase : phdr.isRebased headerSize with
  | true =>
    rw [values_rebase_fit hlt hbase, end_lt_iff hbase ht] at hpack
    rw [if_pos (Or.inl rfl)]
    have hofs := (pOffset_of_isRebased hbase).1
    constructor
    · intro ⟨r, hr⟩
      cases hp : ((phdr.rebase headerSize).trimTo k).pack with
      | error e =>
        rw [hp] at hr
        cases hr
      | ok bytes =>
        exact ⟨fun hlt' => absurd hofs hlt'.ne', fun _ => hpack.mp ⟨bytes, hp⟩⟩
    · intro h
      obtain ⟨bytes, hbytes⟩ := hpack.mpr (h.base hbase)
      exact ⟨(some bytes, k), by rw [hbytes]⟩
  | false =>
    rw [values_trim_fit hlt hbase ht.le, start_le_iff hbase ht] at hpack
    have hkeep : Keepable udata headerSize phdr ↔ (headerSize < phdr.pOffset →
        ∃ i b, phdr.pOffset ≤ i + 1 ∧ i < phdr.pOffset + phdr.pFilesz ∧ udata[i]? = some b ∧
          b ≠ 0) :=
      ⟨Keepable.nonzero, fun h => ⟨h, fun hb => by rw [hbase] at hb; cases hb⟩⟩
    rw [hkeep, ← hpack]
    by_cases hsame : k = phdr.pOffset + phdr.pFilesz
    · rw [if_neg (by simp [hsame])]
      have hstart : phdr.pOffset ≤ k := by omega
      exact iff_of_true ⟨_, rfl⟩ (hpack.mpr ((start_le_iff hbase ht).mp hstart))
    · rw [if_pos (Or.inr hsame)]
      constructor
      · intro ⟨r, hr⟩
        cases hp : ((phdr.rebase headerSize).trimTo k).pack with
        | error e =>
          rw [hp] at hr
          cases hr
        | ok bytes => exact ⟨bytes, rfl⟩
      · intro ⟨bytes, hbytes⟩
        exact ⟨(some bytes, k), by rw [hbytes]⟩

/-- The loop returns when every round does. -/
theorem stripLoop_isOk {ePhoff keepSize : Nat} {phis : List Nat} {udatahd : List UInt8}
    (hnodup : phis.Nodup) (hroom : ∀ phi ∈ phis, phdrOfs ePhoff phi + 0x20 ≤ udatahd.length)
    (h : ∀ phi ∈ phis, ∃ r,
      stripPhdr udata headerSize (Phdr.parse udatahd (phdrOfs ePhoff phi)) = .ok r) :
    ∃ r, stripLoop udata ePhoff headerSize phis udatahd keepSize = .ok r := by
  induction phis generalizing udatahd keepSize with
  | nil => exact ⟨_, rfl⟩
  | cons phi phis ih =>
    obtain ⟨hnot, hnodup⟩ := List.nodup_cons.mp hnodup
    obtain ⟨⟨new, k⟩, hstrip⟩ := h phi List.mem_cons_self
    have hstores := storePhdr_stores hstrip (hroom phi List.mem_cons_self)
    rw [stripLoop, hstrip]
    refine ih hnodup (fun phi' hphi' => ?_) fun phi' hphi' => ?_
    · rw [hstores.length_eq]
      exact hroom phi' (List.mem_cons_of_mem phi hphi')
    · rw [hstores.parse_eq fun heq => hnot (heq ▸ hphi')]
      exact h phi' (List.mem_cons_of_mem phi hphi')

/-! ## What a segment maps -/

/-- The byte that a segment of a file has at a virtual address. -/
def Phdr.byteAt (file : List UInt8) (phdr : Phdr Nat) (a : Nat) : Option UInt8 :=
  if phdr.pVaddr ≤ a ∧ a < phdr.pVaddr + phdr.pMemsz then
    if a - phdr.pVaddr < phdr.pFilesz then file[phdr.pOffset + (a - phdr.pVaddr)]? else some 0
  else none

/-- The segment `q` of the result maps what the segment `p` of the file does. It may begin
earlier, with the headers, and it ends at the same address. -/
structure SameSegment (udata out : List UInt8) (headerSize : Nat) (p q : Phdr Nat) : Prop where
  pType_eq : q.pType = p.pType
  pFlags_eq : q.pFlags = p.pFlags
  pAlign_eq : q.pAlign = p.pAlign
  start_le : q.pVaddr ≤ p.pVaddr
  headers : ∀ a, q.pVaddr ≤ a → a < p.pVaddr → q.pOffset + (a - q.pVaddr) < headerSize
  physical : q.pPaddr + p.pVaddr = p.pPaddr + q.pVaddr
  end_eq : q.pVaddr + q.pMemsz = p.pVaddr + p.pMemsz
  bytes : ∀ a, p.pVaddr ≤ a → a < p.pVaddr + p.pMemsz →
    (a - p.pVaddr < p.pFilesz ∧ p.pOffset + (a - p.pVaddr) < headerSize) ∨
      q.byteAt out a = p.byteAt udata a
  inside : q.pOffset + q.pFilesz ≤ out.length
  fit : ∀ v ∈ q.values, v < 2 ^ 32

/-- Inside a segment the byte at an address is that of the file, or a zero. -/
theorem byteAt_of_mem {file : List UInt8} {a : Nat} (hlo : phdr.pVaddr ≤ a)
    (hhi : a < phdr.pVaddr + phdr.pMemsz) : phdr.byteAt file a =
      if a - phdr.pVaddr < phdr.pFilesz then file[phdr.pOffset + (a - phdr.pVaddr)]? else some 0 :=
  if_pos ⟨hlo, hhi⟩

/-- A segment that was moved to the headers. -/
private theorem sameSegment_of_rebased (hbase : p.isRebased headerSize = true)
    (ht : Trimmed udata (min (p.startOfs headerSize) headerSize) (p.pOffset + p.pFilesz) k)
    (hq : q.map Int.ofNat = (p.rebase headerSize).trimTo k) (hfit : ∀ v ∈ q.values, v < 2 ^ 32)
    (hlen : k ≤ out.length) (hout : ∀ n, headerSize ≤ n → n < k → out[n]? = udata[n]?) :
    SameSegment udata out headerSize p q := by
  obtain ⟨hofs, hvaddr, -⟩ := pOffset_of_isRebased hbase
  rw [Phdr.rebase, if_pos hbase] at hq
  simp only [Phdr.map, Phdr.trimTo, Phdr.mk.injEq, Int.ofNat_eq_natCast] at hq
  obtain ⟨htype, hqofs, hqv, hqp, hqf, hqm, hflags, halign⟩ := hq
  refine ⟨by omega, by omega, by omega, by omega, fun a hlo hhi => by omega, by omega, by omega,
    fun a hlo hhi => Or.inr ?_, by omega, hfit⟩
  rw [byteAt_of_mem (by omega) (by omega), byteAt_of_mem hlo hhi]
  have hpos : q.pOffset + (a - q.pVaddr) = p.pOffset + (a - p.pVaddr) := by omega
  rw [hpos]
  have hle := ht.le
  by_cases hin : a - q.pVaddr < q.pFilesz
  · rw [if_pos hin, if_pos (by omega), hout _ (by omega) (by omega)]
  · rw [if_neg hin]
    split
    · exact (ht.zeros _ (by omega) (by omega)).symm
    · rfl

/-- A segment that stays where it is. -/
private theorem sameSegment_of_trimmed (hbase : p.isRebased headerSize = false)
    (ht : Trimmed udata (min (p.startOfs headerSize) headerSize) (p.pOffset + p.pFilesz) k)
    (hq : q.map Int.ofNat = (p.rebase headerSize).trimTo k) (hfit : ∀ v ∈ q.values, v < 2 ^ 32)
    (hlen : k ≤ out.length) (hout : ∀ n, headerSize ≤ n → n < k → out[n]? = udata[n]?) :
    SameSegment udata out headerSize p q := by
  rw [Phdr.rebase, if_neg (by rw [hbase]; decide)] at hq
  simp only [Phdr.map, Phdr.trimTo, Phdr.mk.injEq, Int.ofNat_eq_natCast] at hq
  obtain ⟨htype, hqofs, hqv, hqp, hqf, hqm, hflags, halign⟩ := hq
  have hle := ht.le
  refine ⟨by omega, by omega, by omega, by omega, fun a hlo hhi => by omega, by omega, by omega,
    fun a hlo hhi => ?_, by omega, hfit⟩
  by_cases hhead : a - p.pVaddr < p.pFilesz ∧ p.pOffset + (a - p.pVaddr) < headerSize
  · exact Or.inl hhead
  right
  have hpos : q.pOffset + (a - q.pVaddr) = p.pOffset + (a - p.pVaddr) := by omega
  rw [byteAt_of_mem (by omega) (by omega), byteAt_of_mem hlo hhi, hpos]
  by_cases hin : a - q.pVaddr < q.pFilesz
  · rw [if_pos hin, if_pos (by omega), hout _ (by omega) (by omega)]
  · rw [if_neg hin]
    split
    · exact (ht.zeros _ (by omega) (by omega)).symm
    · rfl

/-! ## The whole function -/

/-- An executable that passes the checks, with all of its segments inside the file. -/
structure Accepted (udata : List UInt8) : Prop where
  long : 0x54 ≤ udata.length
  check : checkStrip (Ehdr.parse (slice udata 0 0x34)) = .ok ()
  headers : elf32HeaderSize (Ehdr.parse (slice udata 0 0x34)) ≤ udata.length
  segments : ∀ phi < (Ehdr.parse (slice udata 0 0x34)).ePhnum,
    (Phdr.parse udata (phdrOfs 0x34 phi)).pOffset + (Phdr.parse udata (phdrOfs 0x34 phi)).pFilesz ≤
      udata.length

/-- The strip returns a file with the same ELF header, but for the section headers, and with
segments that map what they did. -/
def StripsFaithfully (udata : List UInt8) : Prop :=
  ∃ out, stripElf32 udata = .ok out ∧
    Ehdr.parse (slice out 0 0x34) =
      { Ehdr.parse (slice udata 0 0x34) with eShoff := 0, eShnum := 0, eShstrndx := 0 } ∧
    ∀ phi < (Ehdr.parse (slice udata 0 0x34)).ePhnum,
      SameSegment udata out (elf32HeaderSize (Ehdr.parse (slice udata 0 0x34)))
        (Phdr.parse udata (phdrOfs 0x34 phi)) (Phdr.parse out (phdrOfs 0x34 phi))

section run

variable {udatahd : List UInt8} {ePhnum keepSize : Nat}
  (r : StripRun udata out udatahd headerSize ePhnum keepSize)

include r

/-- Each segment of the result is rebased and trimmed. -/
theorem StripRun.segment {phi : Nat} (hphi : phi < ePhnum) :
    ∃ new k, stripPhdr udata headerSize (Phdr.parse udata (phdrOfs 0x34 phi)) = .ok (new, k) ∧
      (Phdr.parse out (phdrOfs 0x34 phi)).map Int.ofNat =
        ((Phdr.parse udata (phdrOfs 0x34 phi)).rebase headerSize).trimTo k ∧ k ≤ keepSize := by
  obtain ⟨new, k, hstrip, hstored, hk⟩ := r.stripped.done phi (List.mem_range.mpr hphi)
  rw [r.parse_clean hphi] at hstrip hstored
  have hroom := r.room hphi
  rw [r.clean.length_eq] at hroom
  have hout : Phdr.parse out (phdrOfs 0x34 phi) = Phdr.parse udatahd (phdrOfs 0x34 phi) :=
    parse_congr fun n hn => r.out_spec.2.1 _ (by omega)
  exact ⟨new, k, hstrip, hout ▸ hstored, hk⟩

theorem StripRun.sameSegment {phi : Nat} (hphi : phi < ePhnum) :
    SameSegment udata out headerSize (Phdr.parse udata (phdrOfs 0x34 phi))
      (Phdr.parse out (phdrOfs 0x34 phi)) := by
  obtain ⟨new, k, hstrip, hq, hk⟩ := r.segment hphi
  have ht := trimZeros_ok (stripPhdr_ok hstrip).1
  have hfit := parse_lt out (phdrOfs 0x34 phi)
  have hlen : k ≤ out.length := hk.trans_eq r.out_spec.1.symm
  have hout : ∀ n, headerSize ≤ n → n < k → out[n]? = udata[n]? := fun n hlo hhi =>
    r.out_spec.2.2 n hlo (hhi.trans_le hk)
  cases hbase : (Phdr.parse udata (phdrOfs 0x34 phi)).isRebased headerSize with
  | true => exact sameSegment_of_rebased hbase ht hq hfit hlen hout
  | false => exact sameSegment_of_trimmed hbase ht hq hfit hlen hout

/-- The ELF header of the result. -/
theorem StripRun.ehdr : Ehdr.parse (slice out 0 0x34) =
    { Ehdr.parse (slice udata 0 0x34) with eShoff := 0, eShnum := 0, eShstrndx := 0 } := by
  have hsize : 0x34 ≤ headerSize := by
    rw [r.headerSize_eq]
    omega
  have hout : ∀ n < 0x34, out[n]? = (cleanHeaders udata headerSize)[n]? := fun n hn => by
    rw [r.out_spec.2.1 n (by omega), r.stripped.front n hn]
  have hsame : ∀ n, n < 0x20 ∨ (0x24 ≤ n ∧ n < 0x30) →
      (slice out 0 0x34)[n]? = (slice udata 0 0x34)[n]? := fun n hn => by
    rw [getElem?_slice, getElem?_slice, if_pos (by omega), if_pos (by omega), Nat.zero_add,
      hout n (by omega), r.clean.frame n (by omega) (by omega) (by omega)]
  have hcleaned : ∀ n, (0x20 ≤ n ∧ n < 0x24) ∨ (0x30 ≤ n ∧ n < 0x34) →
      (slice out 0 0x34)[n]? = (List.replicate 0x34 (0 : UInt8))[n]? := fun n hn => by
    rw [getElem?_slice, if_pos (by omega), Nat.zero_add, hout n (by omega), r.clean.cleaned n hn,
      List.getElem?_replicate, if_pos (by omega)]
  have hmag : slice (slice out 0 0x34) 0 4 = slice (slice udata 0 0x34) 0 4 :=
    List.ext_getElem? fun n => by
      rw [getElem?_slice (slice out 0 0x34), getElem?_slice (slice udata 0 0x34)]
      by_cases hn : n < 4
      · rw [if_pos hn, if_pos hn, hsame _ (by omega)]
      · rw [if_neg hn, if_neg hn]
  have hread : ∀ off len, off + len ≤ 0x20 ∨ (0x24 ≤ off ∧ off + len ≤ 0x30) →
      readLe (slice out 0 0x34) off len = readLe (slice udata 0 0x34) off len := fun off len hn =>
    readLe_congr _ _ fun i hi => hsame _ (by omega)
  have hzero : ∀ off len, (0x20 ≤ off ∧ off + len ≤ 0x24) ∨ (0x30 ≤ off ∧ off + len ≤ 0x34) →
      readLe (slice out 0 0x34) off len = readLe (List.replicate 0x34 0) off len :=
    fun off len hn => readLe_congr _ _ fun i hi => hcleaned _ (by omega)
  simp only [Ehdr.parse, hmag, hread 4 1 (by decide), hread 5 1 (by decide),
    hread 6 1 (by decide), hread 7 1 (by decide), hread 8 1 (by decide), hread 0x10 2 (by decide),
    hread 0x12 2 (by decide), hread 0x14 4 (by decide), hread 0x18 4 (by decide),
    hread 0x1c 4 (by decide), hread 0x24 4 (by decide), hread 0x28 2 (by decide),
    hread 0x2a 2 (by decide), hread 0x2c 2 (by decide), hread 0x2e 2 (by decide),
    hzero 0x20 4 (by decide), hzero 0x30 2 (by decide), hzero 0x32 2 (by decide)]
  rfl

end run

/-- An accepted file is stripped when every round of the loop succeeds. -/
theorem stripElf32_isOk (h : Accepted udata)
    (hround : ∀ phi < (Ehdr.parse (slice udata 0 0x34)).ePhnum,
      ∃ r, stripPhdr udata (elf32HeaderSize (Ehdr.parse (slice udata 0 0x34)))
        (Phdr.parse udata (phdrOfs 0x34 phi)) = .ok r) :
    ∃ out, stripElf32 udata = .ok out := by
  have hphoff := (checkStrip_ok h.check).1
  have hhead : HasHeaders udata (elf32HeaderSize (Ehdr.parse (slice udata 0 0x34)))
      (Ehdr.parse (slice udata 0 0x34)).ePhnum := ⟨by rw [elf32HeaderSize, hphoff], h.headers⟩
  obtain ⟨⟨udatahd, keepSize⟩, hloop⟩ := @stripLoop_isOk udata _ 0x34
    (elf32HeaderSize (Ehdr.parse (slice udata 0 0x34))) _ _ List.nodup_range
    (fun _ hphi => hhead.room (List.mem_range.mp hphi)) fun phi hphi => by
      rw [hhead.parse_clean (List.mem_range.mp hphi)]
      exact hround phi (List.mem_range.mp hphi)
  refine ⟨joinKept udata (elf32HeaderSize (Ehdr.parse (slice udata 0 0x34))) udatahd keepSize, ?_⟩
  rw [stripElf32, if_neg (Nat.not_lt.mpr h.long)]
  simp only [h.check, hphoff, if_neg (Nat.not_lt.mpr h.headers), hloop, bind, Except.bind, pure,
    Except.pure]

/-- An executable with all segments inside the file is stripped to one whose segments map the same
bytes if and only if every segment behind the headers has a byte that is not zero, in it or right in
front of it, and every segment that is moved to the headers has numbers that allow it. -/
theorem stripElf32_faithful_iff (udata : List UInt8) (h : Accepted udata) :
    StripsFaithfully udata ↔ ∀ phi < (Ehdr.parse (slice udata 0 0x34)).ePhnum,
      Keepable udata (elf32HeaderSize (Ehdr.parse (slice udata 0 0x34)))
        (Phdr.parse udata (phdrOfs 0x34 phi)) := by
  have hround : ∀ phi < (Ehdr.parse (slice udata 0 0x34)).ePhnum,
      (∃ r, stripPhdr udata (elf32HeaderSize (Ehdr.parse (slice udata 0 0x34)))
        (Phdr.parse udata (phdrOfs 0x34 phi)) = .ok r) ↔
      Keepable udata (elf32HeaderSize (Ehdr.parse (slice udata 0 0x34)))
        (Phdr.parse udata (phdrOfs 0x34 phi)) := fun phi hphi =>
    stripPhdr_isOk_iff (parse_lt udata _) (h.segments phi hphi)
  constructor
  · rintro ⟨out, hout, -⟩ phi hphi
    obtain ⟨udatahd, headerSize, ePhnum, keepSize, r⟩ := stripElf32_ok hout
    rw [r.ePhnum_eq] at hphi
    obtain ⟨new, k, hstrip, -⟩ := r.segment hphi
    refine (hround phi (by rwa [r.ePhnum_eq])).mp ⟨(new, k), ?_⟩
    rwa [r.elf32HeaderSize_eq]
  · intro hkeep
    obtain ⟨out, hout⟩ := stripElf32_isOk h fun phi hphi => (hround phi hphi).mpr (hkeep phi hphi)
    obtain ⟨udatahd, headerSize, ePhnum, keepSize, r⟩ := stripElf32_ok hout
    refine ⟨out, hout, r.ehdr, fun phi hphi => ?_⟩
    rw [r.elf32HeaderSize_eq]
    exact r.sameSegment (r.ePhnum_eq ▸ hphi)

/-- An executable with an empty segment, behind a zero. -/
theorem accepted_emptySegment : Accepted (oneSegment 0x56 0 [0x41, 0, 0x41]) :=
  ⟨by decide +kernel, by decide +kernel, by decide +kernel, by decide +kernel⟩

theorem stripElf32_faithful_iff_emptySegment :
    StripsFaithfully (oneSegment 0x56 0 [0x41, 0, 0x41]) ↔
      ∀ phi < (Ehdr.parse (slice (oneSegment 0x56 0 [0x41, 0, 0x41]) 0 0x34)).ePhnum,
        Keepable (oneSegment 0x56 0 [0x41, 0, 0x41])
          (elf32HeaderSize (Ehdr.parse (slice (oneSegment 0x56 0 [0x41, 0, 0x41]) 0 0x34)))
          (Phdr.parse (oneSegment 0x56 0 [0x41, 0, 0x41]) (phdrOfs 0x34 phi)) :=
  stripElf32_faithful_iff _ accepted_emptySegment

/-- It is trimmed by one byte, and cannot be packed. -/
theorem not_stripElf32_faithful :
    ¬ ∀ udata : List UInt8, Accepted udata → StripsFaithfully udata := by
  intro hall
  obtain ⟨out, hout, -⟩ := hall _ accepted_emptySegment
  have herror : stripElf32 (oneSegment 0x56 0 [0x41, 0, 0x41]) = .error .struct := by
    decide +kernel
  rw [herror] at hout
  cases hout

end Liigboot.Tools
