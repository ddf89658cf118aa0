import Liigboot.Installer.Atomic

/-!
# The padding of the last sector

The last few bytes of a source are written with the rest of their sector. The buffer has zeros
there only as long as it has had one chunk: from the second chunk on it has what the chunk before
left, the bytes of the source one buffer in front of the padding.
-/

namespace Liigboot.Installer

variable {source target buf : List UInt8} {a : UInt8} {m fuel i : Nat}

/-! ## The prepared buffer -/

/-- From the signature on, the prepared buffer has the bytes of the source. -/
theorem getElem?_prepared
    (hm : mergeTarget (fileSys source target) (firstFill bufSize (slice source 0 bufSize)) =
      .ok (buf, m)) (hlo : 0x1fe ≤ i) (hhi : i < (slice source 0 bufSize).length) :
    (setActive buf (activeNumber a))[i]? = source[i]? := by
  rw [getElem?_setActive_of_ne (activeNumber_le a) fun p hp => by omega,
    (getElem?_merged hm).2 i hhi, tableByte, if_neg (by omega)]

/-- Behind a source that does not fill it, the prepared buffer has zeros. -/
theorem getElem?_prepared_rest
    (hm : mergeTarget (fileSys source target) (firstFill bufSize (slice source 0 bufSize)) =
      .ok (buf, m)) (hlen : 512 ≤ (slice source 0 bufSize).length)
    (hlo : (slice source 0 bufSize).length ≤ i) (hhi : i < bufSize) :
    (setActive buf (activeNumber a))[i]? = some 0 := by
  have hle : (slice source 0 bufSize).length ≤ bufSize :=
    (length_slice ..).trans_le (Nat.min_le_left _ _)
  have hroom : 0x1fe ≤ (firstFill bufSize (slice source 0 bufSize)).length := by
    rw [length_firstFill hle]
    decide
  have hfirst : (firstFill bufSize (slice source 0 bufSize))[i]? = some 0 := by
    rw [firstFill, fill, getElem?_blit_of_ge (Nat.zero_le _) (by omega), List.getElem?_replicate,
      if_pos hhi]
  rw [getElem?_setActive_of_ne (activeNumber_le a) fun p hp => by omega]
  rcases mergeTarget_ok hm with ⟨-, rfl, -⟩ | ⟨old, -, h512, -, rfl, -⟩ | ⟨old, -, -, -, rfl, -⟩
  · exact hfirst
  · rw [getElem?_copyTable hroom (by omega), if_neg (by omega), hfirst]
  · exact hfirst

/-- The last byte of the boot sector of a source that is accepted. -/
theorem signature_byte (hlen : 512 ≤ (slice source 0 bufSize).length)
    (hsig : hasSignature (firstFill bufSize (slice source 0 bufSize)) = true) :
    source[0x1ff]? = some 0xaa := by
  have hle : (slice source 0 bufSize).length ≤ bufSize :=
    (length_slice ..).trans_le (Nat.min_le_left _ _)
  have hsize : bufSize = 4096 := rfl
  have hbyte : (firstFill bufSize (slice source 0 bufSize))[0x1ff]? = source[0x1ff]? := by
    rw [getElem?_firstFill (by omega), getElem?_slice, if_pos (by omega)]
  rw [← hbyte]
  generalize hbuf : firstFill bufSize (slice source 0 bufSize) = buf at hsig
  have hlength : buf.length = 4096 := by rw [← hbuf, length_firstFill hle, hsize]
  have hslice : slice buf 0x1fe 2 = [buf[0x1fe], buf[0x1ff]] := by
    rw [slice, List.drop_eq_getElem_cons (by omega), List.take_succ_cons,
      List.drop_eq_getElem_cons (by omega), List.take_succ_cons, List.take_zero]
  have hword : buf[0x1fe].toNat + 256 * buf[0x1ff].toNat = 0xaa55 := by
    rw [hasSignature, readLe, hslice, beq_iff_eq, leNat, leNat, leNat] at hsig
    omega
  have hlow := buf[0x1fe].toNat_lt
  have hhigh : buf[0x1ff] = 0xaa := UInt8.toNat_inj.mp (by
    have hnat : (0xaa : UInt8).toNat = 0xaa := rfl
    omega)
  rw [List.getElem?_eq_getElem (by omega), hhigh]

/-! ## The padding -/

/-- The bytes that a run writes behind the end of its source are zeros. -/
def PadsWithZeros (source target : List UInt8) (a : UInt8) (fuel : Nat) : Prop :=
  ∀ i, source.length ≤ i → i < roundUp source.length →
    (applyWrites target (install (fileSys source target) a fuel).writes)[i]? = some 0

/-- Where the last partial sector of a source of some bytes begins. -/
def lastSector (n : Nat) : Nat := n / 512 * 512

theorem roundUp_eq (n : Nat) : roundUp n = lastSector n + if n % 512 = 0 then 0 else 512 := by
  rw [roundUp, sectorsOf, lastSector]
  split_ifs with hwhole <;> omega

/-- A run pads its source with zeros, so that its last sector is that of every other run that does
so, on a source with the same last partial sector. -/
structure PaddingIndependent (source target : List UInt8) (a : UInt8) (fuel : Nat) : Prop where
  zeros : PadsWithZeros source target a fuel
  same : ∀ (source' target' : List UInt8) (a' : UInt8) (fuel' : Nat), source'.length < fuel' →
    (install (fileSys source' target') a' fuel').exit = .returned →
    PadsWithZeros source' target' a' fuel' →
    source'.drop (lastSector source'.length) = source.drop (lastSector source.length) →
    ∀ j, lastSector source.length + j < roundUp source.length →
      (applyWrites target' (install (fileSys source' target') a' fuel').writes)[
        lastSector source'.length + j]? =
      (applyWrites target (install (fileSys source target) a fuel).writes)[
        lastSector source.length + j]?

/-- What a run that returns has written: the source from the signature of its boot sector on, and
behind its end zeros or the bytes one buffer in front. -/
structure Padded (source out : List UInt8) : Prop where
  length_le : 512 ≤ source.length
  signature : source[0x1ff]? = some 0xaa
  body : ∀ i, 0x1fe ≤ i → i < source.length → out[i]? = source[i]?
  short : source.length < bufSize → ∀ i, source.length ≤ i → i < roundUp source.length →
    out[i]? = some 0
  stale : bufSize ≤ source.length → ∀ i, source.length ≤ i → i < roundUp source.length →
    0x1fe ≤ i - bufSize → out[i]? = source[i - bufSize]?

theorem padded_of_returned (hfuel : source.length < fuel)
    (hret : (install (fileSys source target) a fuel).exit = .returned) :
    Padded source (applyWrites target (install (fileSys source target) a fuel).writes) := by
  rcases install_copies_or_refuses source target a fuel hfuel with
    ⟨buf, m, hm, hlen, hsig, -, hc⟩ | ⟨msg, hdied, -⟩
  · have hmin : (slice source 0 bufSize).length = min bufSize source.length := by
      rw [length_slice, Nat.sub_zero]
    have hsize : bufSize = 4096 := rfl
    have hend := le_roundUp source.length
    have himage : ∀ i, i < roundUp source.length →
        (applyWrites target (install (fileSys source target) a fuel).writes)[i]? =
          installImage (setActive buf (activeNumber a)) source i := fun i hi =>
      hc.copied i (Nat.zero_le i) hi
    refine ⟨by omega, signature_byte hlen hsig, fun i hlo hhi => ?_, fun hshort i hlo hhi => ?_,
      fun hlong i hlo hhi hback => ?_⟩
    · rw [himage i (by omega), installImage]
      split_ifs with hfirst
      · exact getElem?_prepared hm hlo (by omega)
      · rfl
    · have hroom := @roundUp_le source.length 1 (by omega)
      rw [himage i hhi, installImage, if_pos (by omega)]
      exact getElem?_prepared_rest hm hlen (by omega) (by omega)
    · have hin : i - bufSize < source.length := by
        simp only [roundUp, sectorsOf] at hhi
        omega
      rw [himage i hhi, installImage, if_neg (by omega), if_neg (by omega)]
      split_ifs with hfirst
      · exact getElem?_prepared hm hback (by omega)
      · rfl
  · rw [hdied] at hret
    cases hret

/-- A source that ends in the sector behind the first buffer has the signature in front of its
padding, and does not have zeros there. -/
private theorem Padded.signature_stale {out : List UInt8} (h : Padded source out)
    (hlong : bufSize ≤ source.length) (hin : source.length < bufSize + 512)
    (hpart : source.length % 512 ≠ 0) : source.length ≤ bufSize + 0x1ff ∧
      bufSize + 0x1ff < roundUp source.length ∧ out[bufSize + 0x1ff]? = some 0xaa := by
  have hsize : bufSize = 4096 := rfl
  have hend : bufSize + 0x1ff < roundUp source.length := by
    simp only [roundUp, sectorsOf]
    omega
  have hstale := h.stale hlong (bufSize + 0x1ff) (by omega) hend (by omega)
  rw [Nat.add_sub_cancel_left, h.signature] at hstale
  exact ⟨by omega, hend, hstale⟩

/-- The padding is zeros if and only if the bytes that the buffer has there are. -/
theorem padsWithZeros_iff (hfuel : source.length < fuel)
    (hret : (install (fileSys source target) a fuel).exit = .returned) :
    PadsWithZeros source target a fuel ↔ (source.length % 512 = 0 ∨ source.length < bufSize ∨
      ∀ i, source.length ≤ i → i < roundUp source.length → source[i - bufSize]? = some 0) := by
  have h := @padded_of_returned source target a fuel hfuel hret
  have hne : some (0xaa : UInt8) ≠ some 0 := by decide
  have hback : ∀ i, i < bufSize + 0x1fe → source.length ≤ i → source.length < bufSize + 512 :=
    fun i h1 h2 => by omega
  by_cases hpart : source.length % 512 = 0
  · refine iff_of_true (fun i hlo hhi => ?_) (Or.inl hpart)
    simp only [roundUp, sectorsOf] at hhi
    omega
  by_cases hshort : source.length < bufSize
  · exact iff_of_true (h.short hshort) (Or.inr (Or.inl hshort))
  have hlong := Nat.le_of_not_lt hshort
  constructor
  · intro hzero
    refine Or.inr (Or.inr fun i hlo hhi => ?_)
    by_cases hfirst : 0x1fe ≤ i - bufSize
    · rw [← h.stale hlong i hlo hhi hfirst, hzero i hlo hhi]
    · obtain ⟨hle, hend, haa⟩ := h.signature_stale hlong (hback i (by omega) hlo) hpart
      exact absurd (haa.symm.trans (hzero _ hle hend)) hne
  · rintro (hwhole | hlt | hstale) i hlo hhi
    · exact absurd hwhole hpart
    · exact absurd hlt hshort
    by_cases hfirst : 0x1fe ≤ i - bufSize
    · rw [h.stale hlong i hlo hhi hfirst, hstale i hlo hhi]
    · obtain ⟨hle, hend, -⟩ := h.signature_stale hlong (hback i (by omega) hlo) hpart
      have hzero := hstale _ hle hend
      rw [Nat.add_sub_cancel_left, h.signature] at hzero
      exact absurd hzero hne

/-- From its last sector on, a run that pads with zeros has written the end of its source. -/
private theorem getElem?_lastSector (hfuel : source.length < fuel)
    (hret : (install (fileSys source target) a fuel).exit = .returned)
    (hzero : PadsWithZeros source target a fuel) {j : Nat}
    (hj : lastSector source.length + j < roundUp source.length) :
    (applyWrites target (install (fileSys source target) a fuel).writes)[
      lastSector source.length + j]? =
      some ((source.drop (lastSector source.length))[j]?.getD 0) := by
  have h := @padded_of_returned source target a fuel hfuel hret
  have hlen := h.length_le
  have hfirst : 0x1fe ≤ lastSector source.length := by
    simp only [lastSector]
    omega
  rw [List.getElem?_drop]
  by_cases hin : lastSector source.length + j < source.length
  · rw [h.body _ (by omega) hin, List.getElem?_eq_getElem hin, Option.getD_some]
  · rw [hzero _ (Nat.le_of_not_lt hin) hj, List.getElem?_eq_none (Nat.le_of_not_lt hin),
      Option.getD_none]

/-- Sources with the same last partial sector have as much padding. -/
private theorem lt_roundUp_of_drop {source' : List UInt8} {j : Nat}
    (hdrop : source'.drop (lastSector source'.length) = source.drop (lastSector source.length))
    (hj : lastSector source.length + j < roundUp source.length) :
    lastSector source'.length + j < roundUp source'.length := by
  have hleft : source'.length - lastSector source'.length =
      source.length - lastSector source.length := by
    rw [← List.length_drop, hdrop, List.length_drop]
  have hmod : source'.length % 512 = source.length % 512 := by
    simp only [lastSector] at hleft
    omega
  rw [roundUp_eq] at hj ⊢
  rw [hmod]
  exact Nat.add_lt_add_left (Nat.lt_of_add_lt_add_left hj) _

/-- A run that returns pads the last sector with zeros, whatever the rest of its source is, if and
only if its source is a number of sectors, or shorter than a buffer, or has zeros one buffer in
front of the padding. -/
theorem install_padding_iff (source target : List UInt8) (a : UInt8) (fuel : Nat)
    (hfuel : source.length < fuel)
    (hret : (install (fileSys source target) a fuel).exit = .returned) :
    PaddingIndependent source target a fuel ↔
      (source.length % 512 = 0 ∨ source.length < bufSize ∨
        ∀ i, source.length ≤ i → i < roundUp source.length → source[i - bufSize]? = some 0) := by
  constructor
  · intro h
    exact (padsWithZeros_iff hfuel hret).mp h.zeros
  · intro h
    have hzero := (padsWithZeros_iff hfuel hret).mpr h
    refine ⟨hzero, fun source' target' a' fuel' hfuel' hret' hzero' hdrop j hj => ?_⟩
    have hj' : lastSector source'.length + j < roundUp source'.length :=
      lt_roundUp_of_drop hdrop hj
    rw [getElem?_lastSector hfuel hret hzero hj, getElem?_lastSector hfuel' hret' hzero' hj', hdrop]

/-- A boot sector with seven sectors of zeros and one more byte behind it. -/
def oneByteMore : List UInt8 := List.replicate 510 0 ++ [0x55, 0xaa] ++ List.replicate 3585 0

/-- The end of its boot sector has no byte behind it that could be left in the buffer. -/
theorem install_padding_iff_short :
    PaddingIndependent (oneByteMore.take 600) [] 0 601 ↔
      ((oneByteMore.take 600).length % 512 = 0 ∨ (oneByteMore.take 600).length < bufSize ∨
        ∀ i, (oneByteMore.take 600).length ≤ i → i < roundUp (oneByteMore.take 600).length →
          (oneByteMore.take 600)[i - bufSize]? = some 0) :=
  install_padding_iff (oneByteMore.take 600) [] 0 601 (by decide +kernel) (by decide +kernel)

/-- The last sector of `oneByteMore` has the signature of its boot sector again. -/
theorem not_install_pads :
    ¬ ∀ (source target : List UInt8) (a : UInt8) (fuel : Nat), source.length < fuel →
      (install (fileSys source target) a fuel).exit = .returned →
      PaddingIndependent source target a fuel := by
  intro hall
  have hlength : oneByteMore.length = 4097 := by decide +kernel
  have hfuel : oneByteMore.length < 4098 := by omega
  have hret : (install (fileSys oneByteMore []) 0 4098).exit = .returned := by decide +kernel
  obtain ⟨hlo, hhi, haa⟩ := (padded_of_returned hfuel hret).signature_stale
    (by rw [hlength]; decide) (by rw [hlength]; decide) (by rw [hlength]; decide)
  have hzero := (hall _ _ _ _ hfuel hret).zeros _ hlo hhi
  exact absurd (haa.symm.trans hzero) (by decide)

end Liigboot.Installer
