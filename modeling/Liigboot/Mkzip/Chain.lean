import Liigboot.Mkzip.Frame

/-!
# The chain of the new file

Setting an entry of the table leaves every other entry alone, although two entries
of 12 bits share a byte. So the loop over the last clusters leaves a chain that
visits them one after the other, and nothing outside the table changes.
-/

namespace Liigboot.Mkzip

/-! ## Numbers in an image -/

/-- A field is its first byte and the rest, little-endian. -/
theorem readLe_succ (data : List UInt8) (off n : Nat) :
    readLe data off (n + 1) = byteAt data off + 256 * readLe data (off + 1) n := by
  rw [readLe, readLe, slice, slice, byteAt, List.getD_eq_getElem?_getD, ← List.drop_drop]
  have hhead : data[off]? = (data.drop off)[0]? := by
    rw [List.getElem?_drop, Nat.add_zero]
  rw [hhead]
  cases data.drop off with
  | nil => simp [leNat]
  | cons x xs => rfl

/-- A field of two bytes. -/
theorem readLe_two (data : List UInt8) (off : Nat) :
    readLe data off 2 = byteAt data off + 256 * byteAt data (off + 1) := by
  rw [readLe_succ, readLe_succ]
  simp [readLe, slice, leNat]

/-- A byte is below 256. -/
theorem byteAt_lt (data : List UInt8) (i : Nat) : byteAt data i < 256 := UInt8.toNat_lt _

/-- What a store leaves. -/
theorem byteAt_setByte {data data' : List UInt8} {i v : Nat} (h : setByte data i v = .ok data')
    (k : Nat) : byteAt data' k = if k = i then v else byteAt data k := by
  obtain ⟨hi, hv, rfl⟩ := setByte_ok h
  rw [byteAt, byteAt, List.getD_eq_getElem?_getD, List.getD_eq_getElem?_getD, List.getElem?_set]
  by_cases hk : k = i
  · rw [if_pos hk, if_pos hk.symm, if_pos hi, Option.getD_some]
    exact UInt8.toNat_ofNat_of_lt' hv
  · rw [if_neg hk, if_neg fun h => hk h.symm]

/-- A store leaves the other bytes. -/
theorem getElem?_setByte {data data' : List UInt8} {i v : Nat} (h : setByte data i v = .ok data')
    {k : Nat} (hk : k ≠ i) : data'[k]? = data[k]? := by
  obtain ⟨-, -, rfl⟩ := setByte_ok h
  rw [List.getElem?_set, if_neg hk.symm]

/-! ## One entry -/

/-- The first of the two bytes that hold an entry. -/
def Header.entryByte (h : Header) (c : Nat) : Nat :=
  h.reservedSectorCount * 512 + if h.isFat16 then 2 * c else c + c / 2

/-- Two stores of `fat_set`. -/
private theorem bind_setByte {data data' : List UInt8} {i j v : Nat} {w : List UInt8 → Nat}
    (h : ((setByte data i v).bind fun d => setByte d j (w d)) = .ok data') :
    ∃ d, setByte data i v = .ok d ∧ setByte d j (w d) = .ok data' := by
  cases h1 : setByte data i v with
  | error e => rw [h1] at h; cases h
  | ok d => exact ⟨d, rfl, by rwa [h1] at h⟩

/-- What setting the entry of a cluster does. -/
structure EntrySet (h : Header) (c v : Nat) (data data' : List UInt8) : Prop where
  entry : fatEntry h data' c = v
  others : ∀ c' ≠ c, fatEntry h data' c' = fatEntry h data c'
  outside : ∀ k, k < h.entryByte c ∨ h.entryByte c + 2 ≤ k → data'[k]? = data[k]?

private theorem entrySet_fat16 {h : Header} (h16 : h.isFat16 = true) {c v : Nat}
    {data d data' : List UInt8} (h1 : setByte data (h.entryOfs c + 1) (v / 256) = .ok d)
    (h2 : setByte d (h.entryOfs c) (v % 256) = .ok data') : EntrySet h c v data data' := by
  have hofs : h.entryOfs c = h.reservedSectorCount * 512 + 2 * c := by
    rw [Header.entryOfs, if_pos h16, Nat.mul_comm c]
  rw [hofs] at h1 h2
  have hb : ∀ k, byteAt data' k = if k = h.reservedSectorCount * 512 + 2 * c then v % 256 else
      if k = h.reservedSectorCount * 512 + 2 * c + 1 then v / 256 else byteAt data k := fun k => by
    rw [byteAt_setByte h2, byteAt_setByte h1]
  refine ⟨?_, fun c' hc => ?_, fun k hk => ?_⟩
  · rw [fatEntry, if_pos h16, readLe_two, hb, hb, if_pos rfl, if_neg (by omega), if_pos rfl]
    omega
  · simp only [fatEntry, h16, if_true, readLe_two, hb]
    rw [if_neg (by omega), if_neg (by omega), if_neg (by omega), if_neg (by omega)]
  · rw [Header.entryByte, if_pos h16] at hk
    rw [getElem?_setByte h2 (by omega), getElem?_setByte h1 (by omega)]

/-- An entry of 12 bits, by the three bytes it shares with its neighbour. -/
private theorem fatEntry_fat12 {h : Header} (h16 : h.isFat16 = false) (data : List UInt8)
    (c : Nat) : fatEntry h data c =
      if c % 2 = 1 then
        byteAt data (h.reservedSectorCount * 512 + c / 2 * 3 + 1) / 16 +
          16 * byteAt data (h.reservedSectorCount * 512 + c / 2 * 3 + 2)
      else
        byteAt data (h.reservedSectorCount * 512 + c / 2 * 3) +
          256 * (byteAt data (h.reservedSectorCount * 512 + c / 2 * 3 + 1) % 16) := by
  have h16' : ¬ h.isFat16 = true := by rw [h16]; exact Bool.false_ne_true
  rw [fatEntry, if_neg h16', readLe_two]
  by_cases hc : c % 2 = 1
  · have hofs : c + c / 2 = c / 2 * 3 + 1 := by omega
    have hsecond : h.reservedSectorCount * 512 + (c / 2 * 3 + 1) + 1 =
        h.reservedSectorCount * 512 + c / 2 * 3 + 2 := by omega
    rw [if_pos hc, if_pos hc, hofs, hsecond, ← Nat.add_assoc]
    omega
  · have hofs : c + c / 2 = c / 2 * 3 := by omega
    have hlt := byteAt_lt data (h.reservedSectorCount * 512 + c / 2 * 3)
    rw [if_neg hc, if_neg hc, hofs]
    omega

/-- The entry of an odd cluster shares its first byte with the cluster before. -/
private theorem entrySet_odd {h : Header} (h16 : h.isFat16 = false) {c v : Nat} (hc : c % 2 = 1)
    {data d data' : List UInt8} (h1 : setByte data (h.entryOfs c + 2) (v / 16) = .ok d)
    (h2 : setByte d (h.entryOfs c + 1) (byteAt d (h.entryOfs c + 1) % 16 + v % 16 * 16) =
      .ok data') : EntrySet h c v data data' := by
  have h16' : ¬ h.isFat16 = true := by rw [h16]; exact Bool.false_ne_true
  have hofs : h.entryOfs c = h.reservedSectorCount * 512 + c / 2 * 3 := by
    rw [Header.entryOfs, if_neg h16']
  rw [hofs] at h1 h2
  have hb : ∀ k, byteAt data' k = if k = h.reservedSectorCount * 512 + c / 2 * 3 + 1 then
      byteAt data (h.reservedSectorCount * 512 + c / 2 * 3 + 1) % 16 + v % 16 * 16 else
      if k = h.reservedSectorCount * 512 + c / 2 * 3 + 2 then v / 16 else byteAt data k := by
    intro k
    rw [byteAt_setByte h2 k, byteAt_setByte h1 (_ + 1), byteAt_setByte h1 k,
      if_neg (show ¬ h.reservedSectorCount * 512 + c / 2 * 3 + 1 =
        h.reservedSectorCount * 512 + c / 2 * 3 + 2 by omega)]
  refine ⟨?_, fun c' hne => ?_, fun k hk => ?_⟩
  · rw [fatEntry_fat12 h16, if_pos hc, hb, hb, if_pos rfl, if_neg (by omega), if_pos rfl]
    omega
  · rw [fatEntry_fat12 h16, fatEntry_fat12 h16]
    by_cases hc' : c' % 2 = 1
    · rw [if_pos hc', if_pos hc', hb, hb, if_neg (by omega), if_neg (by omega), if_neg (by omega),
        if_neg (by omega)]
    · rw [if_neg hc', if_neg hc', hb, hb, if_neg (by omega), if_neg (by omega)]
      by_cases hsame : c' / 2 = c / 2
      · rw [hsame, if_pos rfl]
        omega
      · rw [if_neg (by omega), if_neg (by omega)]
  · rw [Header.entryByte, if_neg h16'] at hk
    rw [getElem?_setByte h2 (by omega), getElem?_setByte h1 (by omega)]

/-- The entry of an even cluster shares its second byte with the cluster behind. -/
private theorem entrySet_even {h : Header} (h16 : h.isFat16 = false) {c v : Nat} (hc : ¬ c % 2 = 1)
    (hv : v < 4096) {data d data' : List UInt8}
    (h1 : setByte data (h.entryOfs c) (v % 256) = .ok d)
    (h2 : setByte d (h.entryOfs c + 1) (byteAt d (h.entryOfs c + 1) / 16 * 16 ||| v / 256) =
      .ok data') : EntrySet h c v data data' := by
  have h16' : ¬ h.isFat16 = true := by rw [h16]; exact Bool.false_ne_true
  have hofs : h.entryOfs c = h.reservedSectorCount * 512 + c / 2 * 3 := by
    rw [Header.entryOfs, if_neg h16']
  rw [hofs] at h1 h2
  have hor : ∀ x : Nat, x / 16 * 16 ||| v / 256 = x / 16 * 16 + v / 256 := fun x => by
    have hnibble : v / 256 < 2 ^ 4 := by omega
    rw [Nat.mul_comm, ← Nat.two_pow_add_eq_or_of_lt hnibble]
  have hb : ∀ k, byteAt data' k = if k = h.reservedSectorCount * 512 + c / 2 * 3 + 1 then
      byteAt data (h.reservedSectorCount * 512 + c / 2 * 3 + 1) / 16 * 16 + v / 256 else
      if k = h.reservedSectorCount * 512 + c / 2 * 3 then v % 256 else byteAt data k := by
    intro k
    rw [byteAt_setByte h2 k, byteAt_setByte h1 (_ + 1), byteAt_setByte h1 k, hor,
      if_neg (show ¬ h.reservedSectorCount * 512 + c / 2 * 3 + 1 =
        h.reservedSectorCount * 512 + c / 2 * 3 by omega)]
  refine ⟨?_, fun c' hne => ?_, fun k hk => ?_⟩
  · rw [fatEntry_fat12 h16, if_neg hc, hb, hb, if_neg (by omega), if_pos rfl, if_pos rfl]
    omega
  · rw [fatEntry_fat12 h16, fatEntry_fat12 h16]
    by_cases hc' : c' % 2 = 1
    · rw [if_pos hc', if_pos hc', hb, hb, if_neg (show ¬ _ + 2 = _ + 1 by omega),
        if_neg (show ¬ _ + 2 = _ by omega)]
      by_cases hsame : c' / 2 = c / 2
      · rw [hsame, if_pos rfl]
        omega
      · rw [if_neg (by omega), if_neg (by omega)]
    · rw [if_neg hc', if_neg hc', hb, hb, if_neg (by omega), if_neg (by omega), if_neg (by omega),
        if_neg (by omega)]
  · rw [Header.entryByte, if_neg h16'] at hk
    rw [getElem?_setByte h2 (by omega), getElem?_setByte h1 (by omega)]

/-- The numbers an entry can hold. -/
def Header.entryMax (h : Header) : Nat := if h.isFat16 then 65536 else 4096

/-- A FAT entry that was set has its value, and the others are left. -/
theorem fatSet_entry {h : Header} {c v : Nat} {next : Int} {data data' : List UInt8}
    (hv : nextMark h next = .ok v) (hmax : v < h.entryMax)
    (hs : fatSet h data c next = .ok data') : EntrySet h c v data data' := by
  rw [fatSet, hv] at hs
  split at hs
  · cases hs
  · simp only [Int.toNat_natCast] at hs
    by_cases h16 : h.isFat16 = true
    · rw [if_pos h16] at hs
      obtain ⟨d, h1, h2⟩ := bind_setByte hs
      exact entrySet_fat16 h16 h1 h2
    · rw [if_neg h16] at hs
      rw [Header.entryMax, if_neg h16] at hmax
      rw [Bool.not_eq_true] at h16
      by_cases hc : c % 2 = 1
      · rw [if_pos hc] at hs
        obtain ⟨d, h1, h2⟩ := bind_setByte hs
        exact entrySet_odd h16 hc h1 h2
      · rw [if_neg hc] at hs
        obtain ⟨d, h1, h2⟩ := bind_setByte hs
        exact entrySet_even h16 hc hmax h1 h2

/-! ## The chain -/

/-- The table of a volume has an entry for each of its clusters, and the entries hold cluster
numbers. -/
structure Header.TableFits (h : Header) : Prop where
  entry : ∀ c : Nat, h.isCluster c = true →
    h.entryByte c + 2 ≤ (h.reservedSectorCount + h.sectorsPerFat) * 512
  number : ∀ c : Nat, h.isCluster c = true → c < h.entryMax

/-- The loop over the last clusters leaves a chain through them and nothing else changed. -/
structure ChainSet (h : Header) (count c : Nat) (last : Int) (data data' : List UInt8) : Prop where
  chain : ∀ k, c ≤ k → k < c + count → (k : Int) ≠ last → fatEntry h data' k = k + 1
  others : ∀ k, k < c ∨ c + count ≤ k → fatEntry h data' k = fatEntry h data k
  outside : ∀ k, k < h.reservedSectorCount * 512 ∨
    (h.reservedSectorCount + h.sectorsPerFat) * 512 ≤ k → data'[k]? = data[k]?

/-- A cluster is marked with the number of its successor, or as the last one. -/
private theorem nextMark_of_fatSet {h : Header} (hfits : h.TableFits) {last : Int} {c : Nat}
    {data data' : List UInt8}
    (hs : fatSet h data c (if (c : Int) = last then -1 else c + 1) = .ok data') :
    ∃ v, nextMark h (if (c : Int) = last then -1 else c + 1) = .ok v ∧ v < h.entryMax ∧
      ((c : Int) ≠ last → v = c + 1) := by
  rw [fatSet] at hs
  split at hs
  · cases hs
  · split at hs
    · cases hs
    · rename_i v hv
      refine ⟨v, hv, ?_⟩
      by_cases hlast : (c : Int) = last
      · rw [if_pos hlast, nextMark, if_pos rfl] at hv
        refine ⟨?_, fun hne => absurd hlast hne⟩
        cases hv
        rw [Header.entryMax]
        split
        · decide
        · decide
      · rw [if_neg hlast, nextMark, if_neg (show ¬ (c : Int) + 1 = -1 by omega)] at hv
        split at hv
        · cases hv
        · rename_i hnext
          cases hv
          have hcl : h.isCluster ((c + 1 : Nat) : Int) = true := by simpa using hnext
          have hnum := hfits.number _ hcl
          exact ⟨hnum, fun _ => rfl⟩

/-- A chain that was added links its clusters in order. -/
theorem addChain_chain {h : Header} (hfits : h.TableFits) {last : Int} (count : Nat) {c : Nat}
    {data data' : List UInt8} (ha : addChain h last count c data = .ok data') :
    ChainSet h count c last data data' := by
  induction count generalizing c data with
  | zero =>
    cases ha
    exact ⟨fun k h1 h2 => by omega, fun _ _ => rfl, fun _ _ => rfl⟩
  | succ count ih =>
    rw [addChain] at ha
    split at ha
    · cases ha
    · split at ha
      · cases ha
      · split at ha
        · cases ha
        · rename_i d hd
          have hcl : h.isCluster c = true := by
            rw [fatSet] at hd
            split at hd
            · cases hd
            · rename_i hn
              simpa using hn
          obtain ⟨v, hv, hmax, hnext⟩ := nextMark_of_fatSet hfits hd
          have hset := fatSet_entry hv hmax hd
          have hrest := ih (c := c + 1) ha
          have hbyte := hfits.entry c hcl
          refine ⟨fun k hlo hhi hk => ?_, fun k hk => ?_, fun k hk => ?_⟩
          · by_cases hkc : k = c
            · subst hkc
              rw [hrest.others k (by omega), hset.entry]
              exact hnext hk
            · exact hrest.chain k (by omega) (by omega) hk
          · rw [hrest.others k (by omega), hset.others k (by omega)]
          · rw [hrest.outside k hk]
            have hlow : h.reservedSectorCount * 512 ≤ h.entryByte c := Nat.le_add_right _ _
            exact hset.outside k (by omega)

end Liigboot.Mkzip
