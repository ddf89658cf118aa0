import Liigboot.Installer.CopyLoop

/-!
# Success or nothing written

For a regular source of the announced size and a target image whose calls all
succeed, a run ends, and it ends in one of two ways. Either the target holds the
image with the target's own partition table, or nothing was handed to `write`:
once the first chunk has passed the check of the copy loop, no later round can
refuse, because the last chunk is never longer than a whole buffer.
-/

namespace Liigboot.Installer

/-! ## Active flags -/

/-- The flag byte of entry `i` when partition `n` is made the only active one. -/
def activeFlag (n i : Nat) (flags : UInt8) : UInt8 :=
  if i + 1 = n then flags &&& 0x7f ||| 0x80 else flags &&& 0x7f

theorem getElem?_setActive_zero (buf : List UInt8) (i : Nat) :
    (setActive buf 0)[i]? = buf[i]? := rfl

/-- Bytes that are no entry's flag byte stay. -/
theorem getElem?_setActive_of_ne {buf : List UInt8} {n : Nat} (hn : n ≤ 4) {i : Nat}
    (hi : ∀ p < 4, i ≠ 0x1be + 0x10 * p) : (setActive buf n)[i]? = buf[i]? := by
  by_cases h0 : n > 0
  · have h1 := hi 0 (by omega)
    have h2 := hi 1 (by omega)
    have h3 := hi 2 (by omega)
    have h4 := hi 3 (by omega)
    have h5 := hi (n - 1) (by omega)
    rw [setActive, if_pos h0]
    simp only [clearActive, List.getElem?_modify]
    simp only [show ¬ 0x1be - 0x10 + n * 0x10 = i by omega, h1.symm, h2.symm, h3.symm, h4.symm,
      if_false, id_map']
  · simp only [setActive, h0, if_false]

/-- The flag byte of entry `p` keeps its low bits and carries `0x80` only for `n = p + 1`. -/
theorem getElem?_setActive_flag (buf : List UInt8) {n p : Nat} (h0 : 0 < n) (hp : p < 4) :
    (setActive buf n)[0x1be + 0x10 * p]? = (buf[0x1be + 0x10 * p]?).map (activeFlag n p) := by
  have hlast : (0x1be - 0x10 + n * 0x10 = 0x1be + 0x10 * p) ↔ p + 1 = n := by omega
  simp only [setActive, clearActive, gt_iff_lt, h0, if_true, List.getElem?_modify, hlast]
  cases hb : buf[0x1be + 0x10 * p]? with
  | none => rfl
  | some f =>
    obtain rfl | rfl | rfl | rfl : p = 0 ∨ p = 1 ∨ p = 2 ∨ p = 3 := by omega
    all_goals simp [activeFlag]

/-! ## The copy loop on a file -/

/-- The end of a source of `n` bytes, rounded up to a whole sector. -/
def roundUp (n : Nat) : Nat := sectorsOf n * 512

/-- `out` is `before` with the bytes from `lo` to `n` replaced by `image`; the rest of the last
sector is not described. -/
structure Copied (image : Nat → Option UInt8) (lo n : Nat) (before out : List UInt8) : Prop where
  front : ∀ i < lo, out[i]? = before[i]?
  copied : ∀ i, lo ≤ i → i < n → out[i]? = image i
  rest : ∀ i, roundUp n ≤ i → out[i]? = before[i]?

theorem le_roundUp (n : Nat) : n ≤ roundUp n := by
  simp only [roundUp, sectorsOf]
  omega

/-- A whole number of chunks is a whole number of sectors. -/
theorem roundUp_le {n k : Nat} (h : n ≤ bufSize * k) : roundUp n ≤ bufSize * k := by
  simp only [roundUp, sectorsOf, bufSize] at *
  omega

theorem roundUp_roundUp (n : Nat) : roundUp (roundUp n) = roundUp n := by
  simp only [roundUp, sectorsOf]
  omega

private theorem Copied.refl {image : Nat → Option UInt8} {lo n : Nat} (h : n ≤ lo)
    (t : List UInt8) : Copied image lo n t t :=
  ⟨fun _ _ => rfl, fun i h1 h2 => by omega, fun _ _ => rfl⟩

/-- The chunk a file yields in its `k`-th read. -/
private theorem length_chunk (source : List UInt8) (k : Nat) :
    (slice source (bufSize * k) bufSize).length = min bufSize (source.length - bufSize * k) :=
  length_slice ..

private theorem length_chunk_le (source : List UInt8) (k : Nat) :
    (slice source (bufSize * k) bufSize).length ≤ bufSize :=
  (length_chunk source k).trans_le (Nat.min_le_left _ _)

private theorem sectorsOf_chunk_le (source : List UInt8) (k : Nat) :
    sectorsOf (slice source (bufSize * k) bufSize).length ≤ 8 :=
    sectorsOf_le (length_chunk_le source k)

private theorem length_fill_chunk (source : List UInt8) (k : Nat) {buf : List UInt8}
    (h : buf.length = bufSize) :
    (fill buf (slice source (bufSize * k) bufSize)).length = bufSize := by
  rw [length_fill ((length_chunk_le source k).trans h.ge), h]

/-- What is copied of a source of `n` bytes: its own bytes from the second chunk on, and behind its
end what the chunk before left in the buffer. -/
structure Image (source : List UInt8) (image : Nat → Option UInt8) : Prop where
  own : ∀ i, bufSize ≤ i → i < source.length → image i = source[i]?
  stale : ∀ i, bufSize ≤ i → source.length ≤ i → i < roundUp source.length →
    image i = image (i - bufSize)

/-- The next chunk in the buffer, with what the buffer had behind it. -/
private theorem getElem?_fill_chunk {source buf : List UInt8} {image : Nat → Option UInt8}
    (himage : Image source image) {k : Nat}
    (hread : ∀ i < bufSize, bufSize * k + i < roundUp source.length →
      buf[i]? = image (bufSize * k + i)) :
    ∀ i < bufSize, bufSize * (k + 1) + i < roundUp source.length →
      (fill buf (slice source (bufSize * (k + 1)) bufSize))[i]? =
        image (bufSize * (k + 1) + i) := by
  intro i hi hend
  have hlen := length_chunk source (k + 1)
  have hnext : bufSize * (k + 1) = bufSize * k + bufSize := by rw [Nat.mul_succ]
  rw [fill, getElem?_blit (Nat.zero_le _), if_neg (Nat.not_lt_zero i), Nat.zero_add, Nat.sub_zero,
    getElem?_slice, if_pos hi]
  by_cases hin : i < (slice source (bufSize * (k + 1)) bufSize).length
  · rw [if_pos hin, himage.own _ (by omega) (by omega)]
  · have hback : bufSize * (k + 1) + i - bufSize = bufSize * k + i := by omega
    rw [if_neg hin, himage.stale _ (by omega) (by omega) hend, hback]
    exact hread i hi (by omega)

/-- A chunk of at most a whole buffer is written in full. -/
private theorem write_fileSys {source target data : List UInt8} (k pos : Nat)
    (h : data.length ≤ bufSize) : ((fileSys source target).write k pos data).taken = data.length :=
  Nat.min_eq_right h

/-- From a round whose chunk passes the check the loop runs to its end and copies the rest. -/
theorem copyLoop_file (source target : List UInt8) {m : Nat} {image : Nat → Option UInt8}
    (himage : Image source image) :
    ∀ (d k : Nat) (buf t : List UInt8), source.length ≤ bufSize * (k + d) →
    buf.length = bufSize → bufSize * k ≤ t.length →
    (∀ i < bufSize, bufSize * k + i < roundUp source.length →
      buf[i]? = image (bufSize * k + i)) →
    sectorsOf (slice source (bufSize * k) bufSize).length ≤ m →
    ∀ fuel, d < fuel →
      let r := copyLoop (fileSys source target) 0 m fuel k (bufSize * k) buf
        (slice source (bufSize * k) bufSize).length
      r.exit = .returned ∧
        Copied image (bufSize * k) (roundUp source.length) t (applyWrites t r.writes) := by
  intro d
  induction d with
  | zero =>
    intro k buf t hd _ _ _ _ fuel hfuel
    obtain ⟨fuel, rfl⟩ := Nat.exists_eq_succ_of_ne_zero (Nat.ne_of_gt hfuel)
    have h0 : (slice source (bufSize * k) bufSize).length = 0 := by
      rw [length_chunk]
      simp only [Nat.add_zero] at hd
      omega
    simp only [copyLoop, h0, if_true, applyWrites_nil]
    exact ⟨trivial, Copied.refl (roundUp_le hd) t⟩
  | succ d ih =>
    intro k buf t hd hbuf ht hread hchk fuel hfuel
    obtain ⟨fuel, rfl⟩ := Nat.exists_eq_succ_of_ne_zero (Nat.ne_of_gt (Nat.zero_lt_of_lt hfuel))
    have hlen := length_chunk source k
    generalize hg : (slice source (bufSize * k) bufSize).length = got at *
    have hle : got ≤ bufSize := by omega
    by_cases h0 : got = 0
    · simp only [copyLoop, h0, if_true, applyWrites_nil]
      exact ⟨trivial, Copied.refl (roundUp_le (by simp only [bufSize] at *; omega)) t⟩
    by_cases hlast : got < bufSize
    · -- the last chunk: the buffer up to a whole sector
      have hbound : sectorsOf got * 512 ≤ bufSize := by
        simp only [sectorsOf, bufSize] at *
        omega
      have htake : (buf.take (sectorsOf got * 512)).length = sectorsOf got * 512 := by
        rw [List.length_take, hbuf, Nat.min_eq_left hbound]
      have htaken : ((fileSys source target).write k (bufSize * k)
          (buf.take (sectorsOf got * 512))).taken = sectorsOf got * 512 := by
        rw [write_fileSys _ _ (htake.trans_le hbound), htake]
      have hround : bufSize * k + sectorsOf got * 512 = roundUp source.length := by
        simp only [roundUp, sectorsOf, bufSize] at *
        omega
      have hge : got ≤ sectorsOf got * 512 := by
        simp only [sectorsOf]
        omega
      rw [copyLoop_last h0 hchk hlast htaken]
      simp only [applyWrites_cons, applyWrites_nil, htaken, true_and]
      have hout := getElem?_overlay (0 : UInt8) (buf.take (sectorsOf got * 512)) ht
      rw [htake, hround] at hout
      simp only [Sys.write, List.take_take, Nat.min_self]
      refine ⟨fun i hi => ?_, fun i hlo hhi => ?_, fun i hi => ?_⟩
      · rw [hout, if_pos hi]
      · rw [hout, if_neg hlo.not_gt, if_pos hhi, List.getElem?_take, if_pos (by omega),
          hread _ (by omega) (by omega), Nat.add_sub_cancel' hlo]
      · rw [roundUp_roundUp] at hi
        rw [hout, if_neg (by omega), if_neg hi.not_gt]
    · -- a whole buffer: one more round follows
      have hfull : got = bufSize := by omega
      have htaken : ((fileSys source target).write k (bufSize * k) buf).taken = bufSize := by
        rw [write_fileSys _ _ hbuf.le, hbuf]
      have hpos : bufSize * k + bufSize = bufSize * (k + 1) := by rw [Nat.mul_succ]
      have hin : bufSize * (k + 1) ≤ source.length := by omega
      have hm : 8 ≤ m := by
        simp only [hfull, sectorsOf, bufSize] at hchk
        omega
      have hnext := length_chunk source (k + 1)
      have hout := getElem?_overlay (0 : UInt8) buf ht
      rw [hbuf, hpos] at hout
      have hlen' : (overlay 0 t (bufSize * k) buf).length ≥ bufSize * (k + 1) := by
        rw [length_overlay ht, hbuf, hpos]
        exact Nat.le_max_right _ _
      rw [hfull, copyLoop_full hm htaken
        (show (fileSys source target).readSource (k + 1) =
          some (slice source (bufSize * (k + 1)) bufSize) from rfl), hpos]
      simp only [Run.after_exit, Run.after_writes, applyWrites_cons, htaken]
      simp only [Sys.write, ← hbuf, List.take_length]
      rw [hbuf]
      have hd' : source.length ≤ bufSize * (k + 1 + d) := by
        rwa [Nat.add_assoc, Nat.add_comm 1]
      obtain ⟨hexit, hc⟩ := ih (k + 1) (fill buf (slice source (bufSize * (k + 1)) bufSize))
        (overlay 0 t (bufSize * k) buf) hd' (length_fill_chunk source (k + 1) hbuf) hlen'
        (getElem?_fill_chunk himage hread) ((sectorsOf_chunk_le ..).trans hm) fuel
        (Nat.lt_of_succ_lt_succ hfuel)
      refine ⟨hexit, fun i hi => ?_, fun i hlo hhi => ?_, fun i hi => ?_⟩
      · rw [hc.front i (by omega), hout, if_pos hi]
      · by_cases hi : i < bufSize * (k + 1)
        · rw [hc.front i hi, hout, if_neg hlo.not_gt, if_pos hi, hread _ (by omega) (by omega),
            Nat.add_sub_cancel' hlo]
        · exact hc.copied i (by omega) hhi
      · have hge : bufSize * (k + 1) ≤ i := by
          rw [roundUp_roundUp] at hi
          exact (hin.trans (le_roundUp _)).trans hi
        rw [hc.rest i hi, hout, if_neg (by omega), if_neg hge.not_gt]

/-! ## The installed target -/

/-- The image with the disk id and the partition table of a signed target. -/
def tableByte (source target : List UInt8) (i : Nat) : Option UInt8 :=
  if hasSignature (target.take 512) = true ∧ 0x1b8 ≤ i ∧ i < 0x1fe then target[i]? else source[i]?

/-- The target after a successful run: the image with the target's table, the active flags
rewritten only on request, and nothing changed behind the image's last sector. -/
structure Installed (source target : List UInt8) (a : UInt8) (out : List UInt8) : Prop where
  body : ∀ i < source.length, (activeNumber a = 0 ∨ ∀ p < 4, i ≠ 0x1be + 0x10 * p) →
    out[i]? = tableByte source target i
  flags : activeNumber a ≠ 0 → ∀ p < 4, out[0x1be + 0x10 * p]? =
    (tableByte source target (0x1be + 0x10 * p)).map (activeFlag (activeNumber a) p)
  rest : ∀ i, roundUp source.length ≤ i → out[i]? = target[i]?

/-- A run that returned and installed the image, or died before any write. -/
def InstalledOrRefused (source target : List UInt8) (a : UInt8) (r : Run) : Prop :=
  (r.exit = .returned ∧ Installed source target a (applyWrites target r.writes)) ∨
    ∃ msg, r.exit = .died msg ∧ r.writes = []

theorem activeNumber_le (a : UInt8) : activeNumber a ≤ 4 := by
  simp only [activeNumber]
  split <;> omega

/-- The merged buffer holds the image with the table of a signed target. -/
theorem getElem?_merged {source target buf : List UInt8} {m : Nat}
    (h : mergeTarget (fileSys source target) (firstFill bufSize (slice source 0 bufSize)) =
      .ok (buf, m)) :
    buf.length = bufSize ∧
      ∀ i < (slice source 0 bufSize).length, buf[i]? = tableByte source target i := by
  have hle : (slice source 0 bufSize).length ≤ bufSize :=
    (length_slice ..).trans_le (Nat.min_le_left _ _)
  have hlen := length_firstFill hle
  have hfirst : ∀ i < (slice source 0 bufSize).length,
      (firstFill bufSize (slice source 0 bufSize))[i]? = source[i]? := by
    intro i hi
    rw [getElem?_firstFill hi, getElem?_slice, if_pos (hi.trans_le hle), Nat.zero_add]
  have hunsigned : hasSignature (target.take 512) = false →
      ∀ i < (slice source 0 bufSize).length,
        (firstFill bufSize (slice source 0 bufSize))[i]? = tableByte source target i := by
    intro hs i hi
    rw [tableByte, hs, if_neg (fun h => Bool.false_ne_true h.1), hfirst i hi]
  rcases mergeTarget_ok h with ⟨he, rfl, -⟩ | ⟨old, ho, h512, hs, rfl, -⟩ | ⟨old, ho, -, hs, rfl, -⟩
  · rw [Option.some.inj he] at hunsigned
    exact ⟨hlen, hunsigned rfl⟩
  · obtain rfl : target.take 512 = old := Option.some.inj ho
    have hroom : 0x1fe ≤ (firstFill bufSize (slice source 0 bufSize)).length := by
      rw [hlen]
      decide
    refine ⟨(length_copyTable hroom).trans hlen, fun i hi => ?_⟩
    rw [getElem?_copyTable hroom (by omega), tableByte, hs, hfirst i hi]
    by_cases hin : 0x1b8 ≤ i ∧ i < 0x1fe
    · rw [if_pos hin, if_pos ⟨rfl, hin⟩, List.getElem?_take, if_pos (by omega)]
    · rw [if_neg hin, if_neg (fun h => hin h.2)]
  · obtain rfl : target.take 512 = old := Option.some.inj ho
    exact ⟨hlen, hunsigned hs⟩

/-- What a run writes: the prepared buffer, the rest of the source, and behind its end what the
chunk before left in the buffer. -/
def installImage (buf source : List UInt8) (i : Nat) : Option UInt8 :=
  if i < bufSize then buf[i]?
  else if i < source.length then source[i]?
  else if i - bufSize < bufSize then buf[i - bufSize]?
  else source[i - bufSize]?

theorem installImage_image (buf source : List UInt8) : Image source (installImage buf source) := by
  refine ⟨fun i hlo hhi => ?_, fun i hlo hend hhi => ?_⟩
  · rw [installImage, if_neg hlo.not_gt, if_pos hhi]
  · have hin : i - bufSize < source.length := by
      simp only [roundUp, sectorsOf, bufSize] at *
      omega
    rw [installImage, installImage, if_neg hlo.not_gt, if_neg hend.not_gt, if_pos hin]

/-- What a copy of the prepared buffer and the rest of the source leaves is the installed
target. -/
private theorem Copied.installed {source target buf out : List UInt8} {a : UInt8}
    (hn : 512 ≤ (slice source 0 bufSize).length)
    (hbuf : ∀ i < (slice source 0 bufSize).length, buf[i]? = tableByte source target i)
    (hc : Copied (installImage (setActive buf (activeNumber a)) source) 0 (roundUp source.length)
      target out) : Installed source target a out := by
  have hmin : (slice source 0 bufSize).length = min bufSize source.length := by
    rw [length_slice, Nat.sub_zero]
  have hend := le_roundUp source.length
  refine ⟨fun i hi hflag => ?_, fun h0 p hp => ?_, fun i hi => hc.rest i ?_⟩
  · rw [hc.copied i (Nat.zero_le i) (hi.trans_le hend), installImage]
    by_cases hb : i < bufSize
    · rw [if_pos hb, ← hbuf i (by omega)]
      rcases hflag with h0 | hne
      · rw [h0, getElem?_setActive_zero]
      · exact getElem?_setActive_of_ne (activeNumber_le a) hne
    · rw [if_neg hb, if_pos hi, tableByte, if_neg (by simp only [bufSize] at hb; omega)]
  · have hin : 0x1be + 0x10 * p < bufSize := by simp only [bufSize]; omega
    rw [hc.copied _ (Nat.zero_le _) (by omega), installImage, if_pos hin,
      getElem?_setActive_flag buf (Nat.pos_of_ne_zero h0) hp, hbuf _ (by omega)]
  · rwa [roundUp_roundUp]

/-- Every run of the installer on a regular source ends: it refuses without having written a byte,
or copies the prepared buffer and the rest of the source. -/
theorem install_copies_or_refuses (source target : List UInt8) (a : UInt8) (fuel : Nat)
    (hfuel : source.length < fuel) :
    (∃ buf m, mergeTarget (fileSys source target) (firstFill bufSize (slice source 0 bufSize)) =
        .ok (buf, m) ∧ 512 ≤ (slice source 0 bufSize).length ∧
        hasSignature (firstFill bufSize (slice source 0 bufSize)) = true ∧
        (install (fileSys source target) a fuel).exit = .returned ∧
        Copied (installImage (setActive buf (activeNumber a)) source) 0 (roundUp source.length)
          target (applyWrites target (install (fileSys source target) a fuel).writes)) ∨
      ∃ msg, (install (fileSys source target) a fuel).exit = .died msg ∧
        (install (fileSys source target) a fuel).writes = [] := by
  cases hp : prepare (fileSys source target) a with
  | error msg => exact Or.inr ⟨msg, by simp only [install, hp], by simp only [install, hp]⟩
  | ok p =>
    obtain ⟨bytes, buf, hr, hlen, hsig, hm, hpe⟩ := prepare_ok hp
    obtain rfl : slice source 0 bufSize = bytes := Option.some.inj hr
    obtain ⟨hbl, -⟩ := getElem?_merged hm
    have hrun : install (fileSys source target) a fuel =
        copyLoop (fileSys source target) 0 p.lbaFirstMin fuel 0 0
          (setActive buf (activeNumber a)) (slice source 0 bufSize).length := by
      rw [install, hp, hpe]
    rw [hrun]
    by_cases hchk : sectorsOf (slice source 0 bufSize).length ≤ p.lbaFirstMin
    · obtain ⟨hexit, hc⟩ := copyLoop_file source target
        (installImage_image (setActive buf (activeNumber a)) source) source.length 0
        (setActive buf (activeNumber a)) target (by simp only [bufSize]; omega)
        ((length_setActive ..).trans hbl) (Nat.zero_le _)
        (fun i hi _ => by rw [Nat.mul_zero, Nat.zero_add, installImage, if_pos hi]) hchk fuel hfuel
      exact Or.inl ⟨buf, p.lbaFirstMin, hm, hlen, hsig, hexit, hc⟩
    · -- the first check refuses; nothing has been written yet
      obtain ⟨fuel, rfl⟩ := Nat.exists_eq_succ_of_ne_zero (Nat.ne_of_gt (Nat.zero_lt_of_lt hfuel))
      have hle : (slice source 0 bufSize).length ≤ bufSize :=
        (length_slice ..).trans_le (Nat.min_le_left _ _)
      right
      refine ⟨"fatal: partition in mbr target starts too early, stopping\n", ?_⟩
      rw [copyLoop, check_eq hle, if_neg (by omega), if_pos (Nat.lt_of_not_le hchk)]
      exact ⟨rfl, rfl⟩

/-- Every run of the installer on a regular source ends, and it either installs the image or
refuses without having written a byte. -/
theorem install_installs_or_refuses (source target : List UInt8) (a : UInt8) (fuel : Nat)
    (hfuel : source.length < fuel) :
    InstalledOrRefused source target a (install (fileSys source target) a fuel) := by
  rcases install_copies_or_refuses source target a fuel hfuel with
    ⟨buf, m, hm, hlen, -, hexit, hc⟩ | hdied
  · exact Or.inl ⟨hexit, hc.installed hlen (getElem?_merged hm).2⟩
  · exact Or.inr hdied

/-- A bare boot sector. -/
def bareSector : List UInt8 := List.replicate 510 0 ++ [0x55, 0xaa]

/-- A disk with a boot sector of its own, a partition from its second sector on, and a byte of it. -/
def signedTarget : List UInt8 :=
  List.replicate 446 0x90 ++ [0x80, 0, 2, 0, 0x83, 0, 2, 0, 1, 0, 0, 0, 1, 0, 0, 0] ++
    List.replicate 48 0 ++ [0x55, 0xaa, 0x61]

/-- The boot sector gets in front of the partition. -/
theorem install_installs_or_refuses_bootSector :
    (install (fileSys bareSector signedTarget) 1 1000).exit = .returned ∧
      Installed bareSector signedTarget 1
        (applyWrites signedTarget (install (fileSys bareSector signedTarget) 1 1000).writes) := by
  have hexit : (install (fileSys bareSector signedTarget) 1 1000).exit = .returned := by
    decide +kernel
  rcases install_installs_or_refuses bareSector signedTarget 1 1000 (by decide +kernel) with
    hinstalled | ⟨msg, hdied, -⟩
  · exact hinstalled
  · rw [hexit] at hdied
    cases hdied

end Liigboot.Installer
