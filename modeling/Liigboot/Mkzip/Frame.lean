import Liigboot.Mkzip.Image

/-!
# The edits stay in front of the data area

The script reads and writes the boot sector, the table and the root directory
only. On an image cut where its data area starts it does the same as on the whole
image, and the rest of the image follows unchanged; so whether it succeeds does not
depend on what the archive holds.
-/

namespace Liigboot.Mkzip

/-! ## Bytes -/

/-- A byte of the prefix is read there whatever follows. -/
theorem byteAt_append {pre : List UInt8} (suf : List UInt8) {i : Nat} (h : i < pre.length) :
    byteAt (pre ++ suf) i = byteAt pre i := by
  rw [byteAt, byteAt, List.getD_eq_getElem?_getD, List.getD_eq_getElem?_getD,
    List.getElem?_append_left h]

/-- A field of the prefix is read there whatever follows. -/
theorem readLe_append {pre : List UInt8} (suf : List UInt8) {off n : Nat}
    (h : off + n ≤ pre.length) : readLe (pre ++ suf) off n = readLe pre off n :=
  readLe_congr _ _ fun i hi => List.getElem?_append_left (by omega)

/-- A slice of the prefix does not depend on what follows. -/
theorem slice_append {pre : List UInt8} (suf : List UInt8) {off n : Nat}
    (h : off + n ≤ pre.length) : slice (pre ++ suf) off n = slice pre off n := by
  apply List.ext_getElem?
  intro i
  rw [getElem?_slice, getElem?_slice]
  by_cases hi : i < n
  · rw [if_pos hi, if_pos hi, List.getElem?_append_left (by omega)]
  · rw [if_neg hi, if_neg hi]

/-- What a store that did not raise has stored, and that it was inside of the buffer. -/
theorem setByte_ok {data data' : List UInt8} {i v : Nat} (h : setByte data i v = .ok data') :
    i < data.length ∧ v < 256 ∧ data' = data.set i (UInt8.ofNat v) := by
  rw [setByte] at h
  split at h
  · cases h
  · split at h
    · cases h
    · cases h
      exact ⟨by omega, by omega, rfl⟩

theorem length_setByte {data data' : List UInt8} {i v : Nat} (h : setByte data i v = .ok data') :
    data'.length = data.length := by
  obtain ⟨-, -, rfl⟩ := setByte_ok h
  exact List.length_set

/-- A store into the prefix leaves what follows. -/
theorem setByte_append {pre : List UInt8} (suf : List UInt8) {i : Nat} (v : Nat)
    (h : i < pre.length) : setByte (pre ++ suf) i v = (setByte pre i v).map (· ++ suf) := by
  rw [setByte, setByte, if_neg (by rw [List.length_append]; omega), if_neg (Nat.not_le.mpr h),
    List.set_append_left _ _ h]
  split
  · rfl
  · rfl

/-- Two stores in front of the cut, the second one with a value read after the first. -/
private theorem setByte_setByte_append {pre : List UInt8} (suf : List UInt8) {i j v : Nat}
    {w : List UInt8 → Nat} (hi : i < pre.length) (hj : j < pre.length)
    (hw : ∀ d : List UInt8, d.length = pre.length → w (d ++ suf) = w d) :
    ((setByte (pre ++ suf) i v).bind fun d => setByte d j (w d)) =
      ((setByte pre i v).bind fun d => setByte d j (w d)).map (· ++ suf) := by
  rw [setByte_append suf v hi]
  cases h : setByte pre i v with
  | error e => rfl
  | ok d =>
    have hlen := length_setByte h
    change setByte (d ++ suf) j (w (d ++ suf)) = (setByte d j (w d)).map (· ++ suf)
    rw [setByte_append suf _ (by omega), hw d hlen]

/-! ## The steps of the script -/

/-- The header fields are read from the first 3Ch bytes. -/
theorem dumpHeader_append {pre : List UInt8} (suf : List UInt8) (h : 0x3c ≤ pre.length) :
    dumpHeader (pre ++ suf) = dumpHeader pre := by
  simp only [dumpHeader, Header.mk.injEq]
  refine ⟨?_, ?_, ?_, ?_, ?_, ?_, ?_, ?_, ?_⟩
  all_goals first
    | exact readLe_append suf (by omega)
    | rw [slice_append suf (by omega)]

/-- The entry of every cluster lies in front of `room`, with the bytes read along with it. -/
def Header.Entries (h : Header) (room : Nat) : Prop :=
  ∀ i, h.isCluster i = true → h.entryOfs i.toNat + (if h.isFat16 then 2 else 3) ≤ room

variable {h : Header} {pre : List UInt8}

/-- A FAT entry is read from the prefix that holds the FATs. -/
theorem fatGet_append (hroom : h.Entries pre.length) (suf : List UInt8) (i : Int) :
    fatGet h (pre ++ suf) i = fatGet h pre i := by
  rw [fatGet, fatGet]
  cases hc : h.isCluster i with
  | false => rfl
  | true =>
    have hin := hroom i hc
    simp only [Bool.not_true, Bool.false_eq_true, if_false]
    have hlen : pre.length ≤ (pre ++ suf).length := by
      rw [List.length_append]
      omega
    by_cases h16 : h.isFat16 = true
    · rw [if_pos h16] at hin
      rw [if_pos h16, if_pos h16, byteAt_append suf (by omega), byteAt_append suf (by omega),
        if_neg (by omega), if_neg (by omega)]
    · rw [if_neg h16] at hin
      have h0 := byteAt_append suf (show h.entryOfs i.toNat < pre.length by omega)
      have h1 := byteAt_append suf (show h.entryOfs i.toNat + 1 < pre.length by omega)
      have h2 := byteAt_append suf (show h.entryOfs i.toNat + 2 < pre.length by omega)
      simp only [h16, Bool.false_eq_true, if_false, h0, h1, h2]
      rw [if_neg (show ¬ (pre ++ suf).length < h.entryOfs i.toNat + 3 by omega),
        if_neg (show ¬ pre.length < h.entryOfs i.toNat + 3 by omega)]

/-- A FAT entry is stored into the prefix that holds the FATs. -/
theorem fatSet_append (hroom : h.Entries pre.length) (suf : List UInt8) (i next : Int) :
    fatSet h (pre ++ suf) i next = (fatSet h pre i next).map (· ++ suf) := by
  rw [fatSet, fatSet]
  cases hc : h.isCluster i with
  | false => rfl
  | true =>
    have hin := hroom i hc
    simp only [Bool.not_true, Bool.false_eq_true, if_false]
    cases nextMark h next with
    | error e => rfl
    | ok v =>
      by_cases h16 : h.isFat16 = true
      · rw [if_pos h16] at hin
        simp only [h16, if_true]
        exact setByte_setByte_append suf (by omega) (by omega) fun _ _ => rfl
      · rw [if_neg h16] at hin
        simp only [h16, Bool.false_eq_true, if_false]
        split
        · exact setByte_setByte_append suf (by omega) (by omega) fun d hd => by
            rw [byteAt_append suf (by omega)]
        · exact setByte_setByte_append suf (by omega) (by omega) fun d hd => by
            rw [byteAt_append suf (by omega)]

theorem length_fatSet {data data' : List UInt8} {i next : Int}
    (hs : fatSet h data i next = .ok data') : data'.length = data.length := by
  have hbind : ∀ {i v j : Nat} {w : List UInt8 → Nat},
      ((setByte data i v).bind fun d => setByte d j (w d)) = .ok data' →
        data'.length = data.length := by
    intro i v j w hb
    cases h1 : setByte data i v with
    | error e => rw [h1] at hb; cases hb
    | ok d =>
      rw [h1] at hb
      exact (length_setByte hb).trans (length_setByte h1)
  rw [fatSet] at hs
  split at hs
  · cases hs
  · split at hs
    · cases hs
    · simp only at hs
      split at hs
      · exact hbind hs
      · split at hs
        · exact hbind hs
        · exact hbind hs

/-- A chain is built inside of the prefix that holds the FATs. -/
theorem addChain_append (hroom : h.Entries pre.length) (suf : List UInt8) (last : Int)
    (count : Nat) (i : Int) :
    addChain h last count i (pre ++ suf) = (addChain h last count i pre).map (· ++ suf) := by
  induction count generalizing i pre with
  | zero => rfl
  | succ count ih =>
    rw [addChain, addChain, fatGet_append hroom]
    cases fatGet h pre i with
    | error e => rfl
    | ok v =>
      simp only
      by_cases hv : v ≠ 0
      · rw [if_pos hv, if_pos hv]
        rfl
      · rw [if_neg hv, if_neg hv, fatSet_append hroom]
        cases hs : fatSet h pre i (if i = last then -1 else i + 1) with
        | error e => rfl
        | ok d =>
          have hlen := length_fatSet hs
          exact ih (hlen ▸ hroom) (i + 1)

theorem length_addChain {data data' : List UInt8} {last : Int} {count : Nat} {i : Int}
    (hs : addChain h last count i data = .ok data') : data'.length = data.length := by
  induction count generalizing i data with
  | zero => cases hs; rfl
  | succ count ih =>
    rw [addChain] at hs
    split at hs
    · cases hs
    · split at hs
      · cases hs
      · split at hs
        · cases hs
        · rename_i d hd
          exact (ih hs).trans (length_fatSet hd)

/-- A directory entry is added to the prefix that holds the directory. -/
theorem addEntry_append (direntry suf : List UInt8) (count : Nat) {i : Nat}
    (hroom : i + 32 * count ≤ pre.length) :
    addEntry direntry count i (pre ++ suf) =
      (addEntry direntry count i pre).map fun e => ⟨e.data ++ suf, e.direntryOfs⟩ := by
  induction count generalizing i with
  | zero => rfl
  | succ count ih =>
    have hi : i + 32 ≤ pre.length := by omega
    rw [addEntry, addEntry, List.getElem?_append_left (by omega)]
    cases pre[i]? with
    | none => rfl
    | some b =>
      simp only
      by_cases hb : b = 0xe5 ∨ b = 0
      · rw [if_pos hb, if_pos hb, List.take_append_of_le_length (by omega),
          List.drop_append_of_le_length hi, ← List.append_assoc]
        rfl
      · rw [if_neg hb, if_neg hb]
        exact ih (by omega)

/-- On an image the script does what it does on the part in front of the data area. -/
theorem addInstallZip_append (hhead : 0x3c ≤ pre.length)
    (hroom : (dumpHeader pre).Entries pre.length)
    (hroot : ((dumpHeader pre).reservedSectorCount +
      (dumpHeader pre).fatCount * (dumpHeader pre).sectorsPerFat) * 512 +
        32 * (dumpHeader pre).rootdirEntryCount ≤ pre.length)
    (suf : List UInt8) (zipLen : Nat) (t : Gmtime) :
    addInstallZip (pre ++ suf) zipLen t =
      (addInstallZip pre zipLen t).map fun e => ⟨e.data ++ suf, e.direntryOfs⟩ := by
  rw [addInstallZip, addInstallZip, dumpHeader_append suf hhead, slice_append suf (by omega),
    List.take_append_of_le_length (by omega)]
  simp only [addChain_append hroom]
  split
  · rfl
  · split
    · rfl
    · split
      · rfl
      · split
        · rfl
        · cases ha : addChain (dumpHeader pre)
            ((dumpHeader pre).startCluster zipLen + (dumpHeader pre).zipClusters zipLen - 1)
            ((dumpHeader pre).zipClusters zipLen) ((dumpHeader pre).startCluster zipLen) pre with
          | error e => rfl
          | ok d =>
            have hlen := length_addChain ha
            simp only [Except.map]
            split
            · rfl
            · exact addEntry_append _ suf _ (hlen ▸ hroot)

end Liigboot.Mkzip
