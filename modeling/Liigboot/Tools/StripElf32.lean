import Liigboot.Tools.Elf32

/-!
# Stripping an executable

`strip_elf32` of `upxbc` keeps the headers of an executable and its bytes up to the end of the last
segment, without the zeros at the ends of the segments. `get_strip_elf32_size` computes the size of
the result alone, from the original program headers.
-/

namespace Liigboot.Tools

/-! ## Trimming -/

/-- `while j < k and udata[k - 1] == '\0': k -= 1` -/
def trimZeros (udata : List UInt8) (j : Nat) : Nat → Except Failure Nat
  | 0 => .ok 0
  | k + 1 =>
    if j < k + 1 then
      match udata[k]? with
      | none => .error .index
      | some b => if b = 0 then trimZeros udata j k else .ok (k + 1)
    else .ok (k + 1)

/-- `ehdr['e_phoff'] + 0x20 * phi` -/
def phdrOfs (ePhoff phi : Nat) : Nat := ePhoff + 0x20 * phi

/-- `elf32_header_size` -/
def elf32HeaderSize (h : Ehdr) : Nat := h.ePhoff + 0x20 * h.ePhnum

/-! ## The size alone -/

/-- The loop of `get_strip_elf32_size`. -/
def sizeLoop (udata : List UInt8) (ePhoff headerSize : Nat) : List Nat → Nat → Except Failure Nat
  | [], keepSize => .ok keepSize
  | phi :: phis, keepSize =>
    let phdr := Phdr.parse udata (phdrOfs ePhoff phi)
    match trimZeros udata (min phdr.pOffset headerSize) (phdr.pOffset + phdr.pFilesz) with
    | .error e => .error e
    | .ok k => sizeLoop udata ePhoff headerSize phis (max keepSize k)

/-- `get_strip_elf32_size` -/
def getStripElf32Size (udata : List UInt8) : Except Failure Nat :=
  if udata.length < 0x54 then .error (.valueError "")
  else
    let ehdr := Ehdr.parse (slice udata 0 0x34)
    if udata.length < elf32HeaderSize ehdr then .error (.valueError "")
    else sizeLoop udata ehdr.ePhoff (elf32HeaderSize ehdr) (List.range ehdr.ePhnum)
      (elf32HeaderSize ehdr)

/-! ## The stripped file -/

/-- The segment starts right behind the headers, and is moved to them. -/
def Phdr.isRebased (headerSize : Nat) (phdr : Phdr Nat) : Bool :=
  phdr.pOffset == headerSize && headerSize ≤ phdr.pVaddr && phdr.pType != 4

/-- The program header with the segment moved to the headers. -/
def Phdr.rebase (headerSize : Nat) (phdr : Phdr Nat) : Phdr Int :=
  if phdr.isRebased headerSize then
    { phdr.map Int.ofNat with
      pOffset := 0
      pVaddr := phdr.pVaddr - headerSize
      pPaddr := phdr.pPaddr - headerSize
      pFilesz := phdr.pFilesz + headerSize
      pMemsz := phdr.pMemsz + headerSize }
  else phdr.map Int.ofNat

/-- One round of the loop of `strip_elf32`: the new program header, when it has changed, and the
end of what the segment keeps. -/
def stripPhdr (udata : List UInt8) (headerSize : Nat) (phdr : Phdr Nat) :
    Except Failure (Option (List UInt8) × Nat) :=
  let phdr1 := phdr.rebase headerSize
  let j := phdr1.pOffset.toNat
  let k0 := (phdr1.pOffset + phdr1.pFilesz).toNat
  match trimZeros udata (min j headerSize) k0 with
  | .error e => .error e
  | .ok k =>
    let phdr2 := if k ≠ k0 then { phdr1 with pFilesz := k - phdr1.pOffset } else phdr1
    if phdr.isRebased headerSize ∨ k ≠ k0 then
      match phdr2.pack with
      | .error e => .error e
      | .ok bytes => .ok (some bytes, k)
    else .ok (none, k)

/-- `udatahd` with the program header at `i`, when it has changed. -/
def storePhdr (udatahd : List UInt8) (i : Nat) : Option (List UInt8) → List UInt8
  | none => udatahd
  | some bytes => blit udatahd i bytes

/-- The loop of `strip_elf32`. -/
def stripLoop (udata : List UInt8) (ePhoff headerSize : Nat) :
    List Nat → List UInt8 → Nat → Except Failure (List UInt8 × Nat)
  | [], udatahd, keepSize => .ok (udatahd, keepSize)
  | phi :: phis, udatahd, keepSize =>
    let i := phdrOfs ePhoff phi
    match stripPhdr udata headerSize (Phdr.parse udatahd i) with
    | .error e => .error e
    | .ok (new, k) =>
      stripLoop udata ePhoff headerSize phis (storePhdr udatahd i new) (max keepSize k)

/-- The checks on the ELF header. -/
def checkStrip (h : Ehdr) : Except Failure Unit :=
  if h.eiMag ≠ elfMag then .error (.valueError "")
  else if h.eiClass ≠ 1 then .error (.valueError "")
  else if h.eiData ≠ 1 then .error (.valueError "")
  else if h.eiVersion ≠ 1 then .error (.valueError "")
  else if h.eAbiversion ≠ 0 then .error (.valueError "")
  else if h.eType ≠ 2 then .error (.valueError "Expected an executable file.")
  else if h.eVersion ≠ 1 then .error (.valueError "")
  else if h.eEhsize ≠ 0x34 then .error (.valueError "")
  else if h.ePhentsize ≠ 0x20 then .error (.valueError "")
  else if h.eFlags ≠ 0 then .error (.valueError "")
  else if h.eShentsize ∉ [0, 0x28] then .error (.valueError "")
  else if h.ePhoff ≠ 0x34 then .error (.valueError "")
  else if 0x1000 ≤ elf32HeaderSize h then .error (.valueError "")
  else .ok ()

/-- `udatahd`: the headers without `e_shoff`, `e_shnum` and `e_shstrndx`. -/
def cleanHeaders (udata : List UInt8) (headerSize : Nat) : List UInt8 :=
  blit (blit (udata.take headerSize) 0x20 (List.replicate 4 0)) 0x30 (List.replicate 4 0)

/-- What is returned: the headers and the rest of what is kept. -/
def joinKept (udata : List UInt8) (headerSize : Nat) (udatahd : List UInt8) (keepSize : Nat) :
    List UInt8 :=
  if udatahd = slice udata 0 headerSize then udata.take keepSize
  else udatahd ++ slice udata headerSize (keepSize - headerSize)

/-- `strip_elf32` -/
def stripElf32 (udata : List UInt8) : Except Failure (List UInt8) :=
  if udata.length < 0x54 then .error (.valueError "")
  else do
    let ehdr := Ehdr.parse (slice udata 0 0x34)
    let headerSize := elf32HeaderSize ehdr
    checkStrip ehdr
    if udata.length < headerSize then .error (.valueError "")
    else
      let (udatahd, keepSize) ← stripLoop udata ehdr.ePhoff headerSize (List.range ehdr.ePhnum)
        (cleanHeaders udata headerSize) headerSize
      return joinKept udata headerSize udatahd keepSize

/-! ## What is trimmed -/

variable {udata : List UInt8} {j k k' headerSize : Nat}

/-- The end that trimming leaves: everything behind it is zero, and it stops at a byte that is not
or at the bound. -/
structure Trimmed (udata : List UInt8) (j k k' : Nat) : Prop where
  le : k' ≤ k
  stop : min j k ≤ k'
  zeros : ∀ i, k' ≤ i → i < k → udata[i]? = some 0
  last : j < k' → ∃ b, udata[k' - 1]? = some b ∧ b ≠ 0

/-- A trim that succeeds takes zeros away from the end. -/
theorem trimZeros_ok (h : trimZeros udata j k = .ok k') : Trimmed udata j k k' := by
  induction k with
  | zero =>
    cases h
    exact ⟨Nat.le_refl 0, Nat.min_le_right j 0, fun i _ hi => absurd hi (Nat.not_lt_zero i),
      fun hj => absurd hj (Nat.not_lt_zero j)⟩
  | succ k ih =>
    rw [trimZeros] at h
    by_cases hj : j < k + 1
    · rw [if_pos hj] at h
      cases hb : udata[k]? with
      | none =>
        rw [hb] at h
        cases h
      | some b =>
        rw [hb] at h
        dsimp only at h
        by_cases hzero : b = 0
        · rw [if_pos hzero] at h
          obtain ⟨hle, hstop, hzeros, hlast⟩ := ih h
          refine ⟨by omega, by omega, fun i hlo hhi => ?_, hlast⟩
          rcases Nat.lt_succ_iff_lt_or_eq.mp hhi with hlt | rfl
          · exact hzeros i hlo hlt
          · rw [hb, hzero]
        · rw [if_neg hzero] at h
          cases h
          exact ⟨Nat.le_refl _, Nat.min_le_right _ _, fun i hlo hhi => absurd hhi hlo.not_gt,
            fun _ => ⟨b, hb, hzero⟩⟩
    · rw [if_neg hj] at h
      cases h
      exact ⟨Nat.le_refl _, Nat.min_le_right _ _, fun i hlo hhi => absurd hhi hlo.not_gt,
        fun hlt => absurd hlt hj⟩

/-- Inside the file the scan does not fail. -/
theorem trimZeros_isOk (h : k ≤ udata.length) : ∃ k', trimZeros udata j k = .ok k' := by
  induction k with
  | zero => exact ⟨0, rfl⟩
  | succ k ih =>
    rw [trimZeros]
    by_cases hj : j < k + 1
    · rw [if_pos hj, List.getElem?_eq_getElem h]
      dsimp only
      by_cases hzero : udata[k] = 0
      · rw [if_pos hzero]
        exact ih (Nat.le_of_succ_le h)
      · exact ⟨k + 1, by rw [if_neg hzero]⟩
    · exact ⟨k + 1, by rw [if_neg hj]⟩

/-- The scan fails unless it stays inside the file. -/
theorem le_length_of_trimZeros (h : trimZeros udata j k = .ok k') (hj : j < k) :
    k ≤ udata.length := by
  cases k with
  | zero => exact Nat.zero_le _
  | succ k =>
    rw [trimZeros, if_pos hj] at h
    cases hb : udata[k]? with
    | none =>
      rw [hb] at h
      cases h
    | some b => exact (List.getElem?_eq_some_iff.mp hb).1

/-- A higher bound only stops the scan earlier. -/
theorem trimZeros_raise {j' : Nat} (h : trimZeros udata j k = .ok k') (hj : j ≤ j') (hk : j' ≤ k) :
    trimZeros udata j' k = .ok (max j' k') := by
  induction k with
  | zero =>
    obtain rfl : j' = 0 := Nat.le_zero.mp hk
    cases h
    rfl
  | succ k ih =>
    by_cases hj' : j' < k + 1
    · rw [trimZeros, if_pos (hj.trans_lt hj')] at h
      rw [trimZeros, if_pos hj']
      cases hb : udata[k]? with
      | none =>
        rw [hb] at h
        cases h
      | some b =>
        rw [hb] at h
        dsimp only at h ⊢
        by_cases hzero : b = 0
        · rw [if_pos hzero] at h ⊢
          exact ih h (Nat.le_of_lt_succ hj')
        · rw [if_neg hzero] at h ⊢
          cases h
          rw [Nat.max_eq_right hk]
    · obtain rfl : j' = k + 1 := by omega
      have hle := (trimZeros_ok h).le
      rw [trimZeros, if_neg (Nat.lt_irrefl _), Nat.max_eq_left hle]

/-! ## One segment -/

variable {phdr : Phdr Nat} {new : Option (List UInt8)}

/-- Where the segment starts in the file, when it may have been moved to the headers. -/
def Phdr.startOfs (headerSize : Nat) (phdr : Phdr Nat) : Nat :=
  if phdr.isRebased headerSize then 0 else phdr.pOffset

/-- The program header with the file size that an end gives. -/
def Phdr.trimTo (phdr : Phdr Int) (k : Nat) : Phdr Int := { phdr with pFilesz := k - phdr.pOffset }

/-- A segment that is re-based begins behind the headers. -/
theorem pOffset_of_isRebased (h : phdr.isRebased headerSize = true) :
    phdr.pOffset = headerSize ∧ headerSize ≤ phdr.pVaddr ∧ phdr.pType ≠ 4 := by
  simpa [Phdr.isRebased, and_assoc] using h

/-- The offset of a segment behind the re-basing. -/
theorem rebase_pOffset (headerSize : Nat) (phdr : Phdr Nat) :
    (phdr.rebase headerSize).pOffset = phdr.startOfs headerSize := by
  unfold Phdr.rebase Phdr.startOfs
  split <;> rfl

/-- Moving a segment to the headers does not move its end. -/
theorem rebase_end (headerSize : Nat) (phdr : Phdr Nat) :
    (phdr.rebase headerSize).pOffset + (phdr.rebase headerSize).pFilesz =
      ((phdr.pOffset + phdr.pFilesz : Nat) : Int) := by
  unfold Phdr.rebase
  split
  · next h =>
    rw [(pOffset_of_isRebased h).1]
    push_cast
    omega
  · push_cast [Phdr.map]
    rfl

/-- A trim to the end changes nothing. -/
theorem trimTo_end (headerSize : Nat) (phdr : Phdr Nat) :
    (phdr.rebase headerSize).trimTo (phdr.pOffset + phdr.pFilesz) = phdr.rebase headerSize := by
  have hend := rebase_end headerSize phdr
  have hsize : ((phdr.pOffset + phdr.pFilesz : Nat) : Int) - (phdr.rebase headerSize).pOffset =
      (phdr.rebase headerSize).pFilesz := by omega
  rw [Phdr.trimTo, hsize]

/-- The round in terms of the segment's own end. -/
theorem stripPhdr_eq (udata : List UInt8) (headerSize : Nat) (phdr : Phdr Nat) :
    stripPhdr udata headerSize phdr =
      match trimZeros udata (min (phdr.startOfs headerSize) headerSize)
          (phdr.pOffset + phdr.pFilesz) with
      | .error e => .error e
      | .ok k =>
        if phdr.isRebased headerSize ∨ k ≠ phdr.pOffset + phdr.pFilesz then
          match ((phdr.rebase headerSize).trimTo k).pack with
          | .error e => .error e
          | .ok bytes => .ok (some bytes, k)
        else .ok (none, k) := by
  have hj : (phdr.rebase headerSize).pOffset.toNat = phdr.startOfs headerSize := by
    rw [rebase_pOffset, Int.toNat_natCast]
  have hk0 : ((phdr.rebase headerSize).pOffset + (phdr.rebase headerSize).pFilesz).toNat =
      phdr.pOffset + phdr.pFilesz := by rw [rebase_end, Int.toNat_natCast]
  have hphdr : ∀ k : Nat, (if k ≠ phdr.pOffset + phdr.pFilesz then
      { phdr.rebase headerSize with pFilesz := k - (phdr.rebase headerSize).pOffset }
      else phdr.rebase headerSize) = (phdr.rebase headerSize).trimTo k := by
    intro k
    split
    · rfl
    · next hk => rw [not_not.mp hk, trimTo_end]
  dsimp only [stripPhdr]
  rw [hk0, hj]
  cases trimZeros udata (min (phdr.startOfs headerSize) headerSize)
      (phdr.pOffset + phdr.pFilesz) with
  | error e => rfl
  | ok k =>
    dsimp only
    rw [hphdr]

/-- The scan of one segment, and the program header that follows from it. -/
theorem stripPhdr_ok (h : stripPhdr udata headerSize phdr = .ok (new, k)) :
    trimZeros udata (min (phdr.startOfs headerSize) headerSize) (phdr.pOffset + phdr.pFilesz) =
        .ok k ∧
      ((new = none ∧ (phdr.rebase headerSize).trimTo k = phdr.map Int.ofNat) ∨
        ∃ bytes, new = some bytes ∧ ((phdr.rebase headerSize).trimTo k).pack = .ok bytes) := by
  rw [stripPhdr_eq] at h
  cases ht : trimZeros udata (min (phdr.startOfs headerSize) headerSize)
      (phdr.pOffset + phdr.pFilesz) with
  | error e =>
    rw [ht] at h
    cases h
  | ok k2 =>
    rw [ht] at h
    dsimp only at h
    split at h
    · cases hp : ((phdr.rebase headerSize).trimTo k2).pack with
      | error e =>
        rw [hp] at h
        cases h
      | ok bytes =>
        rw [hp] at h
        cases h
        exact ⟨rfl, Or.inr ⟨bytes, rfl, hp⟩⟩
    · next hsame =>
      obtain ⟨hbase, hk⟩ := not_or.mp hsame
      cases h
      refine ⟨rfl, Or.inl ⟨rfl, ?_⟩⟩
      rw [not_not.mp hk, trimTo_end, Phdr.rebase, if_neg hbase]

/-- Nothing is kept that is not in the file. -/
theorem le_length_of_stripPhdr (h : stripPhdr udata headerSize phdr = .ok (new, k))
    (hroom : headerSize ≤ udata.length) : k ≤ udata.length := by
  obtain ⟨ht, -⟩ := stripPhdr_ok h
  have hle := (trimZeros_ok ht).le
  by_cases hj : min (phdr.startOfs headerSize) headerSize < phdr.pOffset + phdr.pFilesz
  · exact hle.trans (le_length_of_trimZeros ht hj)
  · omega

/-! ## The loop -/

variable {ePhoff keepSize keepSize' phi phi' i : Nat} {phis : List Nat}
  {udatahd udatahd' : List UInt8}

/-- A header depends on its 32 bytes. -/
theorem parse_congr {xs ys : List UInt8} (h : ∀ n < 0x20, xs[i + n]? = ys[i + n]?) :
    Phdr.parse xs i = Phdr.parse ys i := by
  have hread : ∀ n, n + 4 ≤ 0x20 → readLe xs (i + n) 4 = readLe ys (i + n) 4 := fun n hn =>
    readLe_congr xs ys fun m hm => by
      rw [Nat.add_assoc]
      exact h (n + m) (by omega)
  have hfirst := hread 0 (by decide)
  rw [Nat.add_zero] at hfirst
  rw [Phdr.parse, Phdr.parse, hfirst, hread 4 (by decide), hread 8 (by decide),
    hread 0xc (by decide), hread 0x10 (by decide), hread 0x14 (by decide),
    hread 0x18 (by decide), hread 0x1c (by decide)]

/-- What one round stores: 32 bytes of which the program header is read, and nothing else. -/
structure Stores (udatahd : List UInt8) (i : Nat) (phdr : Phdr Int) (udatahd' : List UInt8) :
    Prop where
  length_eq : udatahd'.length = udatahd.length
  frame : ∀ n, n < i ∨ i + 0x20 ≤ n → udatahd'[n]? = udatahd[n]?
  stored : (Phdr.parse udatahd' i).map Int.ofNat = phdr

/-- The new header is stored in its place. -/
theorem storePhdr_stores
    (h : stripPhdr udata headerSize (Phdr.parse udatahd i) = .ok (new, k))
    (hroom : i + 0x20 ≤ udatahd.length) :
    Stores udatahd i (((Phdr.parse udatahd i).rebase headerSize).trimTo k)
      (storePhdr udatahd i new) := by
  obtain ⟨-, ⟨rfl, hsame⟩ | ⟨bytes, rfl, hpack⟩⟩ := stripPhdr_ok h
  · exact ⟨rfl, fun _ _ => rfl, hsame.symm⟩
  · have hlen := Phdr.length_pack hpack
    have hblit := fun n => @getElem?_blit _ udatahd bytes i (by omega) n
    refine ⟨length_blit (by omega), fun n hn => ?_, Phdr.parse_pack hpack fun n c hc => ?_⟩
    · rw [storePhdr, hblit]
      by_cases hlo : n < i
      · rw [if_pos hlo]
      · rw [if_neg hlo, if_neg (by omega)]
    · have hin := (List.getElem?_eq_some_iff.mp hc).1
      rw [storePhdr, hblit, if_neg (by omega), if_pos (by omega), Nat.add_sub_cancel_left, hc]

/-- The other program headers stay. -/
theorem Stores.parse_eq {phdr : Phdr Int}
    (h : Stores udatahd (phdrOfs ePhoff phi) phdr udatahd') (hne : phi' ≠ phi) :
    Phdr.parse udatahd' (phdrOfs ePhoff phi') = Phdr.parse udatahd (phdrOfs ePhoff phi') :=
  parse_congr fun n hn => h.frame _ (by simp only [phdrOfs]; omega)

/-- A round of the loop stores one header. -/
theorem stripLoop_cons
    (h : stripLoop udata ePhoff headerSize (phi :: phis) udatahd keepSize =
      .ok (udatahd', keepSize'))
    (hroom : phdrOfs ePhoff phi + 0x20 ≤ udatahd.length) :
    ∃ new k next, stripPhdr udata headerSize (Phdr.parse udatahd (phdrOfs ePhoff phi)) =
        .ok (new, k) ∧
      Stores udatahd (phdrOfs ePhoff phi)
        (((Phdr.parse udatahd (phdrOfs ePhoff phi)).rebase headerSize).trimTo k) next ∧
      stripLoop udata ePhoff headerSize phis next (max keepSize k) =
        .ok (udatahd', keepSize') := by
  rw [stripLoop] at h
  cases hs : stripPhdr udata headerSize (Phdr.parse udatahd (phdrOfs ePhoff phi)) with
  | error e =>
    rw [hs] at h
    cases h
  | ok r =>
    obtain ⟨new, k⟩ := r
    rw [hs] at h
    exact ⟨new, k, _, rfl, storePhdr_stores hs hroom, h⟩

/-- What the loop has done when it returns: each program header of the list is rebased and trimmed,
and the end of each segment is kept. -/
structure Stripped (udata : List UInt8) (ePhoff headerSize : Nat) (phis : List Nat)
    (udatahd : List UInt8) (keepSize : Nat) (udatahd' : List UInt8) (keepSize' : Nat) : Prop where
  length_eq : udatahd'.length = udatahd.length
  front : ∀ n < ePhoff, udatahd'[n]? = udatahd[n]?
  others : ∀ phi, phi ∉ phis →
    Phdr.parse udatahd' (phdrOfs ePhoff phi) = Phdr.parse udatahd (phdrOfs ePhoff phi)
  done : ∀ phi ∈ phis, ∃ new k,
    stripPhdr udata headerSize (Phdr.parse udatahd (phdrOfs ePhoff phi)) = .ok (new, k) ∧
      (Phdr.parse udatahd' (phdrOfs ePhoff phi)).map Int.ofNat =
        ((Phdr.parse udatahd (phdrOfs ePhoff phi)).rebase headerSize).trimTo k ∧ k ≤ keepSize'
  keep_le : keepSize ≤ keepSize'
  le_length : keepSize ≤ udata.length → headerSize ≤ udata.length → keepSize' ≤ udata.length

/-- The loop strips each of the segments. -/
theorem stripLoop_stripped
    (h : stripLoop udata ePhoff headerSize phis udatahd keepSize = .ok (udatahd', keepSize'))
    (hnodup : phis.Nodup) (hroom : ∀ phi ∈ phis, phdrOfs ePhoff phi + 0x20 ≤ udatahd.length) :
    Stripped udata ePhoff headerSize phis udatahd keepSize udatahd' keepSize' := by
  induction phis generalizing udatahd keepSize with
  | nil =>
    cases h
    exact ⟨rfl, fun _ _ => rfl, fun _ _ => rfl, fun phi hphi => absurd hphi List.not_mem_nil,
      Nat.le_refl _, fun hle _ => hle⟩
  | cons phi phis ih =>
    obtain ⟨hnot, hnodup⟩ := List.nodup_cons.mp hnodup
    obtain ⟨new, k, next, hstrip, hstores, h⟩ := stripLoop_cons h (hroom phi List.mem_cons_self)
    have hrest := ih h hnodup fun phi' hphi' => by
      rw [hstores.length_eq]
      exact hroom phi' (List.mem_cons_of_mem phi hphi')
    refine ⟨hrest.length_eq.trans hstores.length_eq, fun n hn => ?_, fun phi' hphi' => ?_,
      fun phi' hphi' => ?_, (Nat.le_max_left _ _).trans hrest.keep_le, fun hle hhead => ?_⟩
    · rw [hrest.front n hn, hstores.frame n (Or.inl (by simp only [phdrOfs]; omega))]
    · have hne : phi' ≠ phi := fun heq => hphi' (heq ▸ List.mem_cons_self)
      rw [hrest.others phi' fun hin => hphi' (List.mem_cons_of_mem phi hin), hstores.parse_eq hne]
    · rcases List.mem_cons.mp hphi' with rfl | hphi'
      · refine ⟨new, k, hstrip, ?_, (Nat.le_max_right _ _).trans hrest.keep_le⟩
        rw [hrest.others phi' hnot, hstores.stored]
      · obtain ⟨new', k', hdone⟩ := hrest.done phi' hphi'
        rw [hstores.parse_eq fun heq => hnot (heq ▸ hphi')] at hdone
        exact ⟨new', k', hdone⟩
    · exact hrest.le_length (Nat.max_le.mpr ⟨hle, le_length_of_stripPhdr hstrip hhead⟩) hhead

/-! ## The size of the result -/

/-- The size keeps the end of a segment as the strip does, whether it was moved or not. -/
theorem trimZeros_of_stripPhdr (h : stripPhdr udata headerSize phdr = .ok (new, k)) :
    ∃ k', trimZeros udata (min phdr.pOffset headerSize) (phdr.pOffset + phdr.pFilesz) = .ok k' ∧
      max headerSize k' = max headerSize k := by
  obtain ⟨ht, -⟩ := stripPhdr_ok h
  rw [Phdr.startOfs] at ht
  split at ht
  · next hbase =>
    obtain ⟨hofs, -⟩ := pOffset_of_isRebased hbase
    rw [Nat.zero_min] at ht
    refine ⟨max headerSize k, ?_, by omega⟩
    rw [hofs, Nat.min_self]
    rw [hofs] at ht
    exact trimZeros_raise ht (Nat.zero_le _) (Nat.le_add_right _ _)
  · exact ⟨k, ht, rfl⟩

/-- The loop that only counts has the same size. -/
theorem sizeLoop_of_stripLoop
    (h : stripLoop udata ePhoff headerSize phis udatahd keepSize = .ok (udatahd', keepSize'))
    (hkeep : headerSize ≤ keepSize) (hnodup : phis.Nodup)
    (hroom : ∀ phi ∈ phis, phdrOfs ePhoff phi + 0x20 ≤ udatahd.length)
    (hsame : ∀ phi ∈ phis,
      Phdr.parse udatahd (phdrOfs ePhoff phi) = Phdr.parse udata (phdrOfs ePhoff phi)) :
    sizeLoop udata ePhoff headerSize phis keepSize = .ok keepSize' := by
  induction phis generalizing udatahd keepSize with
  | nil =>
    cases h
    rfl
  | cons phi phis ih =>
    obtain ⟨hnot, hnodup⟩ := List.nodup_cons.mp hnodup
    obtain ⟨new, k, next, hstrip, hstores, h⟩ := stripLoop_cons h (hroom phi List.mem_cons_self)
    obtain ⟨k', ht, hmax⟩ := trimZeros_of_stripPhdr hstrip
    have hkeep' : max keepSize k' = max keepSize k := by omega
    rw [hsame phi List.mem_cons_self] at ht
    simp only [sizeLoop, ht, hkeep']
    refine ih h (hkeep.trans (Nat.le_max_left _ _)) hnodup (fun phi' hphi' => ?_)
      fun phi' hphi' => ?_
    · rw [hstores.length_eq]
      exact hroom phi' (List.mem_cons_of_mem phi hphi')
    · rw [hstores.parse_eq fun heq => hnot (heq ▸ hphi')]
      exact hsame phi' (List.mem_cons_of_mem phi hphi')

/-! ## The whole function -/

variable {out : List UInt8}

/-- The checks ask for headers in the first page, behind that of the file. -/
theorem checkStrip_ok {h : Ehdr} (hok : checkStrip h = .ok ()) :
    h.ePhoff = 0x34 ∧ elf32HeaderSize h < 0x1000 := by
  rw [checkStrip] at hok
  iterate 11 replace hok := (ite_error_eq_ok hok).2
  obtain ⟨hphoff, hok⟩ := ite_error_eq_ok hok
  obtain ⟨hsize, -⟩ := ite_error_eq_ok hok
  exact ⟨not_not.mp hphoff, Nat.lt_of_not_le hsize⟩

/-- The headers that the loop starts with. -/
structure CleanHeaders (udata : List UInt8) (headerSize : Nat) : Prop where
  length_eq : (cleanHeaders udata headerSize).length = headerSize
  frame : ∀ n < headerSize, (n < 0x20 ∨ 0x24 ≤ n) → (n < 0x30 ∨ 0x34 ≤ n) →
    (cleanHeaders udata headerSize)[n]? = udata[n]?
  cleaned : ∀ n, (0x20 ≤ n ∧ n < 0x24) ∨ (0x30 ≤ n ∧ n < 0x34) →
    (cleanHeaders udata headerSize)[n]? = some 0

/-- The headers are cleaned and nothing else is. -/
theorem cleanHeaders_clean (hlo : 0x34 ≤ headerSize) (hhi : headerSize ≤ udata.length) :
    CleanHeaders udata headerSize := by
  have hlen : (udata.take headerSize).length = headerSize := by
    rw [List.length_take, Nat.min_eq_left hhi]
  have hzeros : (List.replicate 4 (0 : UInt8)).length = 4 := rfl
  have hlen1 : (blit (udata.take headerSize) 0x20 (List.replicate 4 0)).length = headerSize := by
    rw [length_blit (by omega), hlen]
  have hread : ∀ n, (cleanHeaders udata headerSize)[n]? =
      if n < 0x30 then if n < 0x20 then (udata.take headerSize)[n]?
        else if n < 0x24 then (List.replicate 4 (0 : UInt8))[n - 0x20]?
        else (udata.take headerSize)[n]?
      else if n < 0x34 then (List.replicate 4 (0 : UInt8))[n - 0x30]?
      else (udata.take headerSize)[n]? := by
    intro n
    rw [cleanHeaders, getElem?_blit (by omega), getElem?_blit (by omega)]
    simp only [hzeros]
    split_ifs <;> first | rfl | omega
  refine ⟨by rw [cleanHeaders, length_blit (by omega), hlen1], fun n hn h1 h2 => ?_,
    fun n hn => ?_⟩
  · have htake : (udata.take headerSize)[n]? = udata[n]? := by
      rw [List.getElem?_take, if_pos hn]
    rw [hread, htake]
    split_ifs <;> first | rfl | omega
  · rw [hread, List.getElem?_replicate, List.getElem?_replicate]
    split_ifs <;> first | rfl | omega

/-- A file that is long enough for the headers. -/
structure HasHeaders (udata : List UInt8) (headerSize ePhnum : Nat) : Prop where
  headerSize_eq : headerSize = 0x34 + 0x20 * ePhnum
  le_length : headerSize ≤ udata.length

section headers

variable {ePhnum : Nat} (r : HasHeaders udata headerSize ePhnum)

include r

/-- The headers of a run are clean. -/
theorem HasHeaders.clean : CleanHeaders udata headerSize :=
  cleanHeaders_clean (by rw [r.headerSize_eq]; omega) r.le_length

/-- Each program header is among them. -/
theorem HasHeaders.room {phi : Nat} (hphi : phi < ePhnum) :
    phdrOfs 0x34 phi + 0x20 ≤ (cleanHeaders udata headerSize).length := by
  rw [r.clean.length_eq, r.headerSize_eq, phdrOfs]
  omega

/-- The loop starts with the program headers of the file. -/
theorem HasHeaders.parse_clean {phi : Nat} (hphi : phi < ePhnum) :
    Phdr.parse (cleanHeaders udata headerSize) (phdrOfs 0x34 phi) =
      Phdr.parse udata (phdrOfs 0x34 phi) := by
  have hroom := r.room hphi
  rw [r.clean.length_eq] at hroom
  have hlo : 0x34 ≤ phdrOfs 0x34 phi := Nat.le_add_right _ _
  exact parse_congr fun n hn => r.clean.frame _ (by omega) (by omega) (by omega)

end headers

/-- The parts of a run that returns. -/
structure StripRun (udata out udatahd : List UInt8) (headerSize ePhnum keepSize : Nat) : Prop
    extends HasHeaders udata headerSize ePhnum where
  long : 0x54 ≤ udata.length
  ePhoff_eq : (Ehdr.parse (slice udata 0 0x34)).ePhoff = 0x34
  ePhnum_eq : (Ehdr.parse (slice udata 0 0x34)).ePhnum = ePhnum
  loop : stripLoop udata 0x34 headerSize (List.range ePhnum) (cleanHeaders udata headerSize)
    headerSize = .ok (udatahd, keepSize)
  out_eq : out = joinKept udata headerSize udatahd keepSize

/-- A run that succeeds has its parts. -/
theorem stripElf32_ok (h : stripElf32 udata = .ok out) :
    ∃ udatahd headerSize ePhnum keepSize,
      StripRun udata out udatahd headerSize ePhnum keepSize := by
  unfold stripElf32 at h
  split at h
  · cases h
  next hlong =>
  obtain ⟨⟨⟩, hcheck, h⟩ := bind_eq_ok h
  obtain ⟨hphoff, -⟩ := checkStrip_ok hcheck
  split at h
  · cases h
  next hroom =>
  obtain ⟨⟨udatahd, keepSize⟩, hloop, h⟩ := bind_eq_ok h
  cases h
  rw [hphoff] at hloop
  exact ⟨udatahd, _, _, keepSize, ⟨by rw [elf32HeaderSize, hphoff], Nat.le_of_not_lt hroom⟩,
    Nat.le_of_not_lt hlong, hphoff, rfl, hloop, rfl⟩

section run

variable {ePhnum : Nat} (r : StripRun udata out udatahd headerSize ePhnum keepSize)

include r

/-- The size of the headers is that of the file. -/
theorem StripRun.elf32HeaderSize_eq :
    elf32HeaderSize (Ehdr.parse (slice udata 0 0x34)) = headerSize := by
  rw [elf32HeaderSize, r.ePhoff_eq, r.ePhnum_eq, r.headerSize_eq]

/-- All segments of the file are stripped. -/
theorem StripRun.stripped : Stripped udata 0x34 headerSize (List.range ePhnum)
    (cleanHeaders udata headerSize) headerSize udatahd keepSize :=
  stripLoop_stripped r.loop List.nodup_range fun _ hphi => r.room (List.mem_range.mp hphi)

/-- Nothing is kept that the file does not have. -/
theorem StripRun.keepSize_le : keepSize ≤ udata.length :=
  r.stripped.le_length r.le_length r.le_length

/-- The result has the headers of the loop, and behind them the bytes of the file. -/
theorem StripRun.out_spec : out.length = keepSize ∧ (∀ n < headerSize, out[n]? = udatahd[n]?) ∧
    ∀ n, headerSize ≤ n → n < keepSize → out[n]? = udata[n]? := by
  have hlen : udatahd.length = headerSize := r.stripped.length_eq.trans r.clean.length_eq
  have hle := r.stripped.keep_le
  have hkeep := r.keepSize_le
  rw [r.out_eq, joinKept]
  split
  · next hsame =>
    refine ⟨by rw [List.length_take, Nat.min_eq_left hkeep], fun n hn => ?_, fun n _ hn => ?_⟩
    · rw [List.getElem?_take, if_pos (hn.trans_le hle), hsame, getElem?_slice, if_pos hn,
        Nat.zero_add]
    · rw [List.getElem?_take, if_pos hn]
  · refine ⟨?_, fun n hn => ?_, fun n hlo hhi => ?_⟩
    · rw [List.length_append, hlen, length_slice]
      omega
    · rw [List.getElem?_append_left (by omega)]
    · rw [List.getElem?_append_right (by omega), hlen, getElem?_slice, if_pos (by omega),
        Nat.add_sub_cancel' hlo]

end run

/-- The size that is computed alone is the length of the result, for every input that has one. -/
theorem stripElf32_size (udata out : List UInt8) (h : stripElf32 udata = .ok out) :
    getStripElf32Size udata = .ok out.length := by
  obtain ⟨udatahd, headerSize, ePhnum, keepSize, r⟩ := stripElf32_ok h
  rw [getStripElf32Size, if_neg (Nat.not_lt.mpr r.long)]
  dsimp only
  rw [r.elf32HeaderSize_eq, if_neg (Nat.not_lt.mpr r.le_length), r.ePhoff_eq, r.ePhnum_eq,
    r.out_spec.1]
  exact sizeLoop_of_stripLoop r.loop (Nat.le_refl _) List.nodup_range
    (fun _ hphi => r.room (List.mem_range.mp hphi))
    fun _ hphi => r.parse_clean (List.mem_range.mp hphi)

/-- An executable with one segment, and the bytes behind its headers. -/
def oneSegment (pOffset pFilesz : UInt8) (data : List UInt8) : List UInt8 :=
  elfMag ++ [1, 1, 1, 0, 0, 0, 0, 0, 0, 0, 0, 0, 2, 0, 3, 0, 1, 0, 0, 0, 0, 0, 0, 0, 0x34, 0, 0, 0,
    0, 0, 0, 0, 0, 0, 0, 0, 0x34, 0, 0x20, 0, 1, 0, 0x28, 0, 0, 0, 0, 0] ++
  [1, 0, 0, 0, pOffset, 0, 0, 0, 0, 0x10, 0, 0, 0, 0x10, 0, 0, pFilesz, 0, 0, 0, 0x60, 0, 0, 0,
    7, 0, 0, 0, 0, 0x10, 0, 0] ++ data

/-- The same with the segment from the start of the file on, 0x54 bytes in front of its address. -/
def rebasedSegment : List UInt8 :=
  blit (blit (blit (oneSegment 0 0x55 [0x41]) 0x3c [0xac, 0xf]) 0x40 [0xac, 0xf]) 0x48 [0xb4]

/-- A segment behind the headers, with three zeros at its end. -/
theorem stripElf32_size_oneSegment :
    getStripElf32Size (oneSegment 0x54 4 [0x41, 0, 0, 0]) = .ok rebasedSegment.length :=
  stripElf32_size (oneSegment 0x54 4 [0x41, 0, 0, 0]) rebasedSegment (by decide +kernel)

end Liigboot.Tools
