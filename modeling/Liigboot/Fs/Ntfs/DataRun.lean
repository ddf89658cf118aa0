import Liigboot.Lib.Bytes
import Liigboot.Fs.Extent
import Mathlib.Data.List.Induction

/-!
# The mapping pairs of NTFS

`parse_data_run` decodes one run of a mapping-pairs array: a byte with the widths of the two
numbers that follow, the length and the signed distance from the start of the last run. A run
without a distance is sparse.
-/

namespace Liigboot.Fs.Ntfs

/-- A value in an `int64_t`. -/
def i64 (n : Int) : Int := n.bmod (2 ^ 64)

def mapStart : UInt32 := 1

def mapEnd : UInt32 := 2

def mapAllocated : UInt32 := 4

def mapUnallocated : UInt32 := 8

def mapMask : UInt32 := 0x0f

/-- `struct mapping_chunk`. -/
structure MappingChunk where
  vcn : Nat
  lcn : Int
  len : Nat
  flags : UInt32
  deriving DecidableEq, Repr

/-! ## The source -/

/-- A loop of `parse_data_run`: the bytes from `base + count` down to the one behind `base`. -/
def readDown (stream : Nat → UInt8) (step : Nat → UInt8 → Nat) (base : Nat) : Nat → Nat → Nat
  | 0, res => res
  | count + 1, res => readDown stream step base count (step res (stream (base + (count + 1))))

/-- A byte of the length. -/
def lenStep (res : Nat) (val : UInt8) : Nat :=
  let mask := val.toNat >>> 7
  u64 (res <<< 8) ||| ((val.toNat + mask) ^^^ mask)

/-- A byte of the distance. -/
def lcnStep (res : Nat) (byte : UInt8) : Nat := u64 (res <<< 8) ||| byte.toNat

/-- `parse_data_run`: whether it fails, the new offset and the chunk. The stream ends at
`attrLen`. -/
def parseDataRun (stream : Nat → UInt8) (offset attrLen : Nat) (chunk : MappingChunk) :
    Bool × Nat × MappingChunk :=
  let flags := chunk.flags &&& ~~~mapMask
  if offset > attrLen ∨ stream offset = 0 then
    (false, offset, { chunk with flags := flags ||| mapEnd })
  else
    let flags := if offset = 0 then flags ||| mapStart else flags
    let v := (stream offset &&& 0x0f).toNat
    let l := (stream offset >>> 4).toNat
    if v > 8 ∨ l > 8 then (true, offset, { chunk with flags })
    else
      let len := readDown stream lenStep offset v 0
      let res := if stream (offset + v + l) &&& 0x80 ≠ 0 then 2 ^ 64 - 1 else 0
      let res := readDown stream lcnStep (offset + v) l res
      let lcn := i64 (chunk.lcn + i64 res)
      let flags := flags ||| if lcn = 0 then mapUnallocated else mapAllocated
      (false, u32 (offset + (v + l + 1)), { chunk with lcn, len, flags })

/-- `mapping_chunk_init`. -/
def mappingChunkInit : MappingChunk := ⟨0, 0, 0, 0⟩

/-- The chunks up to the end of the stream, for a number of calls that is enough. -/
def decodeRuns (stream : Nat → UInt8) (attrLen : Nat) :
    Nat → Nat → MappingChunk → Option (List MappingChunk)
  | 0, _, _ => none
  | calls + 1, offset, chunk =>
    match parseDataRun stream offset attrLen chunk with
    | (true, _, _) => none
    | (false, offset, chunk) =>
      if chunk.flags &&& mapEnd ≠ 0 then some []
      else (decodeRuns stream attrLen calls offset chunk).map (chunk :: ·)

/-! ## Mapping pairs -/

/-- A run of a mapping-pairs array: the bytes of its two numbers. -/
structure Run where
  len : List UInt8
  delta : List UInt8
  len_pos : 1 ≤ len.length
  len_le : len.length ≤ 8
  delta_le : delta.length ≤ 8

/-- The bytes of a run. -/
def Run.bytes (r : Run) : List UInt8 :=
  UInt8.ofNat (16 * r.delta.length + r.len.length) :: (r.len ++ r.delta)

/-- The bytes of an array without its end. -/
def encodeRuns (runs : List Run) : List UInt8 := runs.flatMap Run.bytes

/-- The first cluster of a run behind one that starts at `base`; a sparse run has none, and leaves
the base as it is. -/
def Run.start (base : Int) (r : Run) : Int := if r.delta = [] then base else base + leInt r.delta

/-- What a run means. -/
structure Decoded where
  len : Nat
  lcn : Int
  unallocated : Bool
  deriving DecidableEq, Repr

/-- What the runs behind one that starts at `base` mean. -/
def meaning (base : Int) : List Run → List Decoded
  | [] => []
  | r :: rs => ⟨leNat r.len, r.start base, r.delta = []⟩ :: meaning (r.start base) rs

/-- What a chunk says. -/
def MappingChunk.decoded (chunk : MappingChunk) : Decoded :=
  ⟨chunk.len, chunk.lcn, chunk.flags &&& mapUnallocated ≠ 0⟩

/-- The cluster numbers fit 64 bits. -/
def InRange (base : Int) : List Run → Prop
  | [] => True
  | r :: rs => (-2 ^ 63 ≤ r.start base ∧ r.start base < 2 ^ 63) ∧ InRange (r.start base) rs

/-- A byte of a length that is read right. -/
def plainByte (b : UInt8) : Bool := b.toNat < 0x80 || b.toNat % 2 = 0

/-- A run that is read right behind one that starts at `base`. -/
def Run.plain (base : Int) (r : Run) : Bool :=
  r.len.all plainByte &&
    if r.delta = [] then base = 0 && r.len.getLastD 0 < 0x80 else r.start base ≠ 0

/-- Runs that are read right. -/
def plainRuns (base : Int) : List Run → Bool
  | [] => true
  | r :: rs => r.plain base && plainRuns (r.start base) rs

/-! ## The two numbers -/

variable {stream : Nat → UInt8} {step : Nat → UInt8 → Nat} {base offset attrLen : Nat}
  {bs : List UInt8} {b : UInt8} {chunk : MappingChunk}

/-- The loop folds the bytes, the last one first. -/
theorem readDown_eq (h : ∀ i b, bs[i]? = some b → stream (base + 1 + i) = b) (res : Nat) :
    readDown stream step base bs.length res = bs.foldr (fun b res => step res b) res := by
  induction bs using List.reverseRecOn generalizing res with
  | nil => rfl
  | append_singleton bs b ih =>
    have hlast : stream (base + (bs.length + 1)) = b := by
      rw [← h bs.length b (by rw [List.getElem?_append_right le_rfl]; simp)]
      congr 1
      omega
    rw [List.length_append, List.length_singleton, readDown, hlast, List.foldr_append]
    refine ih (fun i c hi => h i c ?_) _
    rw [List.getElem?_append_left (List.getElem?_eq_some_iff.mp hi).1]
    exact hi

/-- The length that is read. -/
def readLen (bs : List UInt8) : Nat := bs.foldr (fun b res => lenStep res b) 0

/-- The low byte of a shifted number is the one that is put in. -/
theorem shifted_or_mod (res x : Nat) : (u64 (res <<< 8) ||| x) % 256 = x % 256 := by
  have hlow : u64 (res <<< 8) % 256 = 0 := by
    rw [u64, Nat.shiftLeft_eq]
    omega
  have hor := Nat.or_mod_two_pow (a := u64 (res <<< 8)) (b := x) (n := 8)
  rw [show (2 : Nat) ^ 8 = 256 from rfl, hlow, Nat.zero_or] at hor
  exact hor

/-- The others are moved up. -/
theorem shifted_or_byte (res : Nat) {x : Nat} (hx : x < 256) :
    u64 (res <<< 8) ||| x = 256 * (res % 2 ^ 56) + x := by
  have hshift : u64 (res <<< 8) = (res % 2 ^ 56) <<< 8 := by
    rw [u64, Nat.shiftLeft_eq, Nat.shiftLeft_eq]
    omega
  rw [hshift, ← Nat.shiftLeft_add_eq_or_of_lt (show x < 2 ^ 8 from hx), Nat.shiftLeft_eq]
  omega

/-- The mask changes the bytes that are not plain, and these only. It leaves no byte that is not 0
as 0. -/
theorem masked_byte (b : UInt8) :
    (plainByte b = true → (b.toNat + b.toNat >>> 7) ^^^ (b.toNat >>> 7) = b.toNat) ∧
      (plainByte b = false → ((b.toNat + b.toNat >>> 7) ^^^ (b.toNat >>> 7)) % 256 ≠ b.toNat) ∧
      (b.toNat ≠ 0 → ((b.toNat + b.toNat >>> 7) ^^^ (b.toNat >>> 7)) % 256 ≠ 0) := by
  have hall : ∀ n < 256,
      ((decide (n < 0x80) || decide (n % 2 = 0)) = true → (n + n >>> 7) ^^^ (n >>> 7) = n) ∧
        ((decide (n < 0x80) || decide (n % 2 = 0)) = false →
          ((n + n >>> 7) ^^^ (n >>> 7)) % 256 ≠ n) ∧
        (n ≠ 0 → ((n + n >>> 7) ^^^ (n >>> 7)) % 256 ≠ 0) := by
    decide +kernel
  exact hall b.toNat b.toNat_lt

/-- The bytes of a length that count are right when all of them are plain, and only then. -/
theorem readLen_mod_iff (h : bs.length ≤ 8) :
    readLen bs % 256 ^ bs.length = leNat bs ↔ bs.all plainByte = true := by
  induction bs with
  | nil => simp [readLen, leNat]
  | cons b bs ih =>
    rw [List.length_cons] at h
    have hcons : readLen (b :: bs) = lenStep (readLen bs) b := rfl
    have hb := b.toNat_lt
    rw [List.all_cons, Bool.and_eq_true, ← ih (by omega), hcons, lenStep, leNat,
      List.length_cons, Nat.pow_succ, Nat.mul_comm (256 ^ bs.length), Nat.mod_mul]
    cases hp : plainByte b with
    | false =>
      have hne := (masked_byte b).2.1 hp
      rw [← shifted_or_mod (readLen bs)] at hne
      refine ⟨fun heq => absurd ?_ hne, fun h => by simp at h⟩
      omega
    | true =>
      have hmask := (masked_byte b).1 hp
      have hdvd : 256 ^ bs.length ∣ 2 ^ 56 := by
        rw [show (2 : Nat) ^ 56 = 256 ^ 7 from rfl]
        exact Nat.pow_dvd_pow 256 (by omega)
      rw [hmask, shifted_or_byte _ hb, Nat.mul_add_mod, Nat.mod_eq_of_lt hb, Nat.mul_add_div
        (by decide), Nat.div_eq_of_lt hb, Nat.add_zero, Nat.mod_mod_of_dvd _ hdvd]
      constructor
      · intro heq
        exact ⟨rfl, by omega⟩
      · rintro ⟨-, heq⟩
        rw [heq]

/-- A length of plain bytes. -/
theorem readLen_plain (h : bs.length ≤ 8) (hplain : bs.all plainByte = true) :
    readLen bs = leNat bs := by
  induction bs with
  | nil => rfl
  | cons b bs ih =>
    rw [List.length_cons] at h
    rw [List.all_cons, Bool.and_eq_true] at hplain
    have hcons : readLen (b :: bs) = lenStep (readLen bs) b := rfl
    have hlt : leNat bs < 2 ^ 56 := by
      refine (leNat_lt bs).trans_le ?_
      rw [show (2 : Nat) ^ 56 = 256 ^ 7 from rfl]
      exact Nat.pow_le_pow_right (by decide) (by omega)
    rw [hcons, ih (by omega) hplain.2, lenStep, (masked_byte b).1 hplain.1,
      shifted_or_byte _ b.toNat_lt, Nat.mod_eq_of_lt hlt, leNat, Nat.add_comm]

/-- The length is read right when all its bytes are plain, and only then. -/
theorem readLen_iff (h : bs.length ≤ 8) : readLen bs = leNat bs ↔ bs.all plainByte = true := by
  refine ⟨fun heq => ?_, readLen_plain h⟩
  rw [← readLen_mod_iff h, heq, Nat.mod_eq_of_lt (leNat_lt bs)]

/-- A length that is not 0 is not read as 0. -/
theorem readLen_mod_ne_zero (h : bs.length ≤ 8) (hne : leNat bs ≠ 0) :
    readLen bs % 256 ^ bs.length ≠ 0 := by
  induction bs with
  | nil => exact absurd rfl hne
  | cons b bs ih =>
    rw [List.length_cons] at h
    have hcons : readLen (b :: bs) = lenStep (readLen bs) b := rfl
    rw [hcons, List.length_cons, Nat.pow_succ, Nat.mul_comm (256 ^ bs.length), Nat.mod_mul]
    by_cases hb : b.toNat = 0
    · rw [leNat, hb, Nat.zero_add] at hne
      have hrest := ih (by omega) fun hz => hne (by rw [hz])
      have hdvd : 256 ^ bs.length ∣ 2 ^ 56 := by
        rw [show (2 : Nat) ^ 56 = 256 ^ 7 from rfl]
        exact Nat.pow_dvd_pow 256 (by omega)
      rw [lenStep, hb, shifted_or_byte _ (by decide : (0 + 0 >>> 7) ^^^ (0 >>> 7) < 256)]
      rw [Nat.mul_add_div (by decide), Nat.div_eq_of_lt (by decide), Nat.add_zero,
        Nat.mod_mod_of_dvd _ hdvd]
      omega
    · have hlow := (masked_byte b).2.2 hb
      rw [← shifted_or_mod (readLen bs)] at hlow
      rw [lenStep]
      omega

theorem readLen_pos (h : bs.length ≤ 8) (hpos : 0 < leNat bs) : 0 < readLen bs := by
  refine Nat.pos_of_ne_zero fun hz => readLen_mod_ne_zero h hpos.ne' ?_
  rw [hz, Nat.zero_mod]
/-- The distance that is read, before its sign is taken. -/
def readLcn (bs : List UInt8) (res : Nat) : Nat := bs.foldr (fun b res => lcnStep res b) res

/-- A number that is read behind another one. -/
theorem readLcn_eq {res : Nat} (hres : res < 2 ^ 64) :
    readLcn bs res = (res * 256 ^ bs.length + leNat bs) % 2 ^ 64 := by
  induction bs with
  | nil =>
    rw [leNat, List.length_nil, Nat.pow_zero, Nat.mul_one, Nat.add_zero, Nat.mod_eq_of_lt hres]
    rfl
  | cons b bs ih =>
    have hcons : readLcn (b :: bs) res = lcnStep (readLcn bs res) b := rfl
    have hb := b.toNat_lt
    have hmul : res * 256 ^ (bs.length + 1) = 256 * (res * 256 ^ bs.length) := by
      rw [Nat.pow_succ, ← Nat.mul_assoc, Nat.mul_comm]
    rw [hcons, lcnStep, shifted_or_byte _ hb, ih, List.length_cons, leNat, hmul]
    omega

/-- The sign of the distance, from its last byte. -/
def signRes (b : UInt8) : Nat := if b &&& 0x80 ≠ 0 then 2 ^ 64 - 1 else 0

/-- The sign bit of a byte. -/
theorem flag_iff (b : UInt8) : b &&& 0x80 ≠ 0 ↔ ¬b < 0x80 := by
  have hall : ∀ n < 256, UInt8.ofNat n &&& 0x80 ≠ 0 ↔ ¬UInt8.ofNat n < 0x80 := by decide +kernel
  have hb := hall b.toNat b.toNat_lt
  rwa [UInt8.ofNat_toNat] at hb

/-- The distance is read right, up to the width of the variable. -/
theorem i64_readLcn (bs : List UInt8) :
    i64 (readLcn bs (signRes (bs.getLastD 0))) = i64 (leInt bs) := by
  have hlt : signRes (bs.getLastD 0) < 2 ^ 64 := by
    rw [signRes]
    split_ifs <;> decide
  rw [readLcn_eq hlt, i64, i64, Int.natCast_emod, leInt]
  have hmod : ∀ x : Int, (x % ((2 ^ 64 : Nat) : Int)).bmod (2 ^ 64) = x.bmod (2 ^ 64) :=
    fun x => Int.emod_bmod x _
  rw [hmod, signRes]
  by_cases h : bs.getLastD 0 < 0x80
  · rw [if_neg (fun hne => (flag_iff _).mp hne h), if_pos h, Nat.zero_mul, Nat.zero_add]
  · rw [if_pos ((flag_iff _).mpr h), if_neg h]
    have hsplit : (((2 ^ 64 - 1) * 256 ^ bs.length + leNat bs : Nat) : Int) =
        (leNat bs - 256 ^ bs.length) + ((2 ^ 64 : Nat) : Int) * 256 ^ bs.length := by
      have hmax : ((2 ^ 64 - 1 : Nat) : Int) = 18446744073709551615 := rfl
      have htwo : ((2 ^ 64 : Nat) : Int) = 18446744073709551616 := rfl
      rw [Int.natCast_add, Int.natCast_mul, Int.natCast_pow, hmax, htwo]
      change 18446744073709551615 * (256 : Int) ^ bs.length + _ = _
      generalize (256 : Int) ^ bs.length = c
      omega
    rw [hsplit, Int.add_mul_bmod_self_left]

/-! ## One run -/

variable {r : Run} {runs : List Run} {rest : List UInt8}

/-- The bytes `xs` lie in the stream from `offset` on. -/
def At (stream : Nat → UInt8) (offset : Nat) (xs : List UInt8) : Prop :=
  ∀ i b, xs[i]? = some b → stream (offset + i) = b

/-- Bytes behind bytes of a stream. -/
theorem At.append {xs ys : List UInt8} (h : At stream offset (xs ++ ys)) :
    At stream offset xs ∧ At stream (offset + xs.length) ys := by
  refine ⟨fun i b hi => h i b ?_, fun i b hi => ?_⟩
  · rw [List.getElem?_append_left (List.getElem?_eq_some_iff.mp hi).1]
    exact hi
  · rw [Nat.add_assoc]
    refine h (xs.length + i) b ?_
    rw [List.getElem?_append_right (Nat.le_add_right _ _), Nat.add_sub_cancel_left]
    exact hi

/-- The first of them. -/
theorem At.cons {xs : List UInt8} (h : At stream offset (b :: xs)) :
    stream offset = b ∧ At stream (offset + 1) xs := by
  have happ := @At.append stream offset [b] xs h
  exact ⟨happ.1 0 b rfl, happ.2⟩

/-- The last of them. -/
theorem At.last {xs : List UInt8} (h : At stream (offset + 1) xs) (hne : xs ≠ []) :
    stream (offset + xs.length) = xs.getLastD 0 := by
  have hpos := List.length_pos_iff.mpr hne
  have hlast := h (xs.length - 1) (xs.getLastD 0) (by
    rw [List.getLastD_eq_getLast?, List.getLast?_eq_getElem?]
    rw [List.getElem?_eq_getElem (by omega)]
    rfl)
  rw [← hlast]
  congr 1
  omega

theorem length_bytes (r : Run) : r.bytes.length = r.len.length + r.delta.length + 1 := by
  rw [Run.bytes, List.length_cons, List.length_append]

/-- The widths in the first byte. -/
theorem header_eq (r : Run) :
    UInt8.ofNat (16 * r.delta.length + r.len.length) ≠ 0 ∧
      (UInt8.ofNat (16 * r.delta.length + r.len.length) &&& 0x0f).toNat = r.len.length ∧
      (UInt8.ofNat (16 * r.delta.length + r.len.length) >>> 4).toNat = r.delta.length := by
  have hall : ∀ l < 9, ∀ v < 9, 1 ≤ v → UInt8.ofNat (16 * l + v) ≠ 0 ∧
      (UInt8.ofNat (16 * l + v) &&& 0x0f).toNat = v ∧
      (UInt8.ofNat (16 * l + v) >>> 4).toNat = l := by decide +kernel
  have hlen := r.len_le
  have hdelta := r.delta_le
  exact hall r.delta.length (by omega) r.len.length (by omega) r.len_pos

/-- The cluster number that a call stores. -/
def nextLcn (lcn : Int) (r : Run) : Int :=
  if r.delta = [] then if r.len.getLastD 0 < 0x80 then i64 lcn else i64 (lcn - 1)
  else i64 (lcn + leInt r.delta)

/-- A mask goes over both. -/
theorem or_and (a b c : UInt32) : (a ||| b) &&& c = (a &&& c) ||| (b &&& c) :=
  UInt32.toBitVec_inj.mp (by
    simp only [UInt32.toBitVec_and, UInt32.toBitVec_or]
    exact BitVec.and_or_distrib_right)

/-- A flag behind the assignments of `parse_data_run`. -/
theorem flags_and (flags new flag : UInt32) (first : Prop) [Decidable first]
    (hmask : ~~~mapMask &&& flag = 0) (hstart : mapStart &&& flag = 0) :
    ((if first then (flags &&& ~~~mapMask) ||| mapStart else flags &&& ~~~mapMask) ||| new) &&&
      flag = new &&& flag := by
  have hold : flags &&& ~~~mapMask &&& flag = 0 := by
    rw [UInt32.and_assoc, hmask, UInt32.and_zero]
  rw [or_and]
  split_ifs
  · rw [or_and, hold, hstart, UInt32.zero_or, UInt32.zero_or]
  · rw [hold, UInt32.zero_or]

/-- The flags that a call leaves at a run: one of those for holes and for allocated runs, and not
the one for the end. -/
theorem flags_run (flags : UInt32) (first : Prop) [Decidable first] (lcn : Int) :
    let left := (if first then (flags &&& ~~~mapMask) ||| mapStart else flags &&& ~~~mapMask) |||
      if lcn = 0 then mapUnallocated else mapAllocated
    (left &&& mapUnallocated ≠ 0 ↔ lcn = 0) ∧ (left &&& mapAllocated ≠ 0 ↔ lcn ≠ 0) ∧
      left &&& mapEnd = 0 := by
  refine ⟨?_, ?_, ?_⟩
  · rw [flags_and _ _ _ _ rfl rfl]
    split_ifs with h0
    · exact ⟨fun _ => h0, fun _ => by decide⟩
    · exact ⟨fun hf => absurd rfl hf, fun heq => absurd heq h0⟩
  · rw [flags_and _ _ _ _ rfl rfl]
    split_ifs with h0
    · exact ⟨fun hf => absurd rfl hf, fun hne => absurd h0 hne⟩
    · exact ⟨fun _ => h0, fun _ => by decide⟩
  · rw [flags_and _ _ _ _ rfl rfl]
    split_ifs <;> rfl

/-- What a call does at a run. -/
theorem parseDataRun_run (h : At stream offset (r.bytes ++ rest)) (hle : offset ≤ attrLen) :
    ∃ chunk', parseDataRun stream offset attrLen chunk =
        (false, u32 (offset + r.bytes.length), chunk') ∧ chunk'.vcn = chunk.vcn ∧
      chunk'.len = readLen r.len ∧ chunk'.lcn = nextLcn chunk.lcn r ∧
      (chunk'.flags &&& mapUnallocated ≠ 0 ↔ chunk'.lcn = 0) ∧
      (chunk'.flags &&& mapAllocated ≠ 0 ↔ chunk'.lcn ≠ 0) ∧ chunk'.flags &&& mapEnd = 0 := by
  obtain ⟨hne, hv, hl⟩ := header_eq r
  obtain ⟨hhead, hbody⟩ := (At.append h).1.cons
  have hbytes := hbody
  obtain ⟨hlen, hdelta⟩ := hbody.append
  have hlenNe : r.len ≠ [] := List.length_pos_iff.mp r.len_pos
  have hlast := hbytes.last (List.append_ne_nil_of_left_ne_nil hlenNe r.delta)
  rw [List.length_append, ← Nat.add_assoc] at hlast
  have hreadLen : readDown stream lenStep offset r.len.length 0 = readLen r.len :=
    readDown_eq hlen 0
  have hreadLcn : ∀ res, readDown stream lcnStep (offset + r.len.length) r.delta.length res =
      readLcn r.delta res := readDown_eq (by
    rw [Nat.add_right_comm] at hdelta
    exact hdelta)
  have hlcn : i64 (chunk.lcn + i64 (readLcn r.delta (signRes
      ((r.len ++ r.delta).getLastD 0)))) = nextLcn chunk.lcn r := by
    rw [nextLcn]
    split_ifs with hnil hsign
    · rw [hnil, List.append_nil, signRes, if_neg (fun hf => (flag_iff _).mp hf hsign)]
      change i64 (chunk.lcn + i64 0) = i64 chunk.lcn
      rw [i64, i64, i64, Int.add_bmod_bmod, Int.add_zero]
    · rw [hnil, List.append_nil, signRes, if_pos ((flag_iff _).mpr hsign)]
      rfl
    · have hgetLast : (r.len ++ r.delta).getLastD 0 = r.delta.getLastD 0 := by
        rw [List.getLastD_eq_getLast?, List.getLast?_append_of_ne_nil _ hnil,
          ← List.getLastD_eq_getLast?]
      rw [hgetLast, i64_readLcn, i64, i64, i64, Int.add_bmod_bmod]
  unfold parseDataRun
  rw [hhead, if_neg (by rw [not_or]; exact ⟨by omega, hne⟩)]
  simp only [hv, hl]
  have hwidths : ¬(8 < r.len.length ∨ 8 < r.delta.length) := by
    rw [not_or]
    exact ⟨Nat.not_lt.mpr r.len_le, Nat.not_lt.mpr r.delta_le⟩
  rw [if_neg hwidths, hlast, hreadLen, hreadLcn]
  have hsign : (if (r.len ++ r.delta).getLastD 0 &&& 0x80 ≠ 0 then 2 ^ 64 - 1 else 0) =
      signRes ((r.len ++ r.delta).getLastD 0) := rfl
  rw [hsign, hlcn, length_bytes]
  exact ⟨_, rfl, rfl, rfl, rfl, flags_run chunk.flags (offset = 0) _⟩

/-- What a call does at the end. -/
theorem parseDataRun_end (h : stream offset = 0) :
    ∃ chunk', parseDataRun stream offset attrLen chunk = (false, offset, chunk') ∧
      chunk'.flags &&& mapUnallocated = 0 ∧ chunk'.flags &&& mapAllocated = 0 ∧
      chunk'.flags &&& mapEnd ≠ 0 := by
  have hend := fun flag hmask hstart => flags_and chunk.flags mapEnd flag False hmask hstart
  simp only [if_false] at hend
  unfold parseDataRun
  rw [if_pos (Or.inr h)]
  refine ⟨_, rfl, ?_, ?_, ?_⟩
  · exact hend mapUnallocated rfl rfl
  · exact hend mapAllocated rfl rfl
  · dsimp only
    rw [hend mapEnd rfl rfl]
    decide

/-- A number in range does not wrap. -/
theorem i64_of_range {n : Int} (hlo : -2 ^ 63 ≤ n) (hhi : n < 2 ^ 63) : i64 n = n := by
  rw [i64]
  apply Int.bmod_eq_of_le
  · exact hlo
  · exact hhi

/-- What a call stores is right for the runs that are read right, and only for them. -/
theorem decoded_iff {base : Int} {chunk' : MappingChunk} (hlen : chunk'.len = readLen r.len)
    (hlcn : chunk'.lcn = nextLcn base r)
    (hflag : chunk'.flags &&& mapUnallocated ≠ 0 ↔ chunk'.lcn = 0)
    (hbase : -2 ^ 63 ≤ base ∧ base < 2 ^ 63)
    (hstart : -2 ^ 63 ≤ r.start base ∧ r.start base < 2 ^ 63) :
    chunk'.decoded = ⟨leNat r.len, r.start base, r.delta = []⟩ ↔ r.plain base = true := by
  have hbaseEq := i64_of_range hbase.1 hbase.2
  rw [MappingChunk.decoded, Decoded.mk.injEq, hlen, readLen_iff r.len_le, Run.plain,
    Bool.and_eq_true, decide_eq_decide, hflag, hlcn]
  refine and_congr_right fun _ => ?_
  by_cases hnil : r.delta = []
  · rw [nextLcn, if_pos hnil, if_pos hnil, Run.start, if_pos hnil, Bool.and_eq_true,
      decide_eq_true_eq, decide_eq_true_eq]
    by_cases hsign : r.len.getLastD 0 < 0x80
    · rw [if_pos hsign, hbaseEq]
      exact ⟨fun h => ⟨h.2.mpr hnil, hsign⟩, fun h => ⟨rfl, fun _ => hnil, fun _ => h.1⟩⟩
    · rw [if_neg hsign]
      refine ⟨fun h => ?_, fun h => absurd h.2 hsign⟩
      have hdvd := Int.dvd_self_sub_of_bmod_eq h.1
      rw [show base - 1 - base = -1 by omega] at hdvd
      exact absurd hdvd (by decide)
  · rw [nextLcn, if_neg hnil, if_neg hnil, decide_eq_true_eq]
    rw [Run.start, if_neg hnil] at hstart ⊢
    rw [i64_of_range hstart.1 hstart.2]
    exact ⟨fun h heq => hnil (h.2.mp heq), fun h => ⟨rfl, fun heq => absurd heq h,
      fun heq => absurd heq hnil⟩⟩

/-- The first run is in front. -/
theorem encodeRuns_cons : encodeRuns (r :: runs) = r.bytes ++ encodeRuns runs := rfl

/-- Whole arrays, from any run on. -/
theorem decodeRuns_iff (hat : At stream offset (encodeRuns runs ++ [0]))
    (hend : offset + (encodeRuns runs).length ≤ attrLen) (hlt : attrLen < 2 ^ 32)
    (hbase : -2 ^ 63 ≤ chunk.lcn ∧ chunk.lcn < 2 ^ 63) (hrange : InRange chunk.lcn runs) :
    (decodeRuns stream attrLen (runs.length + 1) offset chunk).map (List.map MappingChunk.decoded) =
      some (meaning chunk.lcn runs) ↔ plainRuns chunk.lcn runs = true := by
  induction runs generalizing offset chunk with
  | nil =>
    obtain ⟨chunk', hparse, -, -, hflag⟩ := @parseDataRun_end stream offset attrLen chunk hat.cons.1
    rw [List.length_nil, decodeRuns, hparse]
    dsimp only
    rw [if_pos hflag]
    exact ⟨fun _ => rfl, fun _ => rfl⟩
  | cons r runs ih =>
    rw [encodeRuns_cons, List.append_assoc] at hat
    rw [encodeRuns_cons, List.length_append] at hend
    obtain ⟨chunk', hparse, -, hlen, hlcn, hunalloc, -, hflag⟩ :=
      @parseDataRun_run stream offset attrLen chunk r _ hat (by omega)
    have hdecoded := decoded_iff hlen hlcn hunalloc hbase hrange.1
    have hoff : u32 (offset + r.bytes.length) = offset + r.bytes.length :=
      Nat.mod_eq_of_lt (by omega)
    rw [List.length_cons, decodeRuns, hparse]
    dsimp only
    rw [if_neg (not_not.mpr hflag), hoff, meaning, plainRuns, Bool.and_eq_true, ← hdecoded,
      Option.map_map]
    have hcons : ∀ rest : Option (List MappingChunk),
        rest.map (List.map MappingChunk.decoded ∘ fun x => chunk' :: x) =
          some (⟨leNat r.len, r.start chunk.lcn, r.delta = []⟩ ::
            meaning (r.start chunk.lcn) runs) ↔
        chunk'.decoded = ⟨leNat r.len, r.start chunk.lcn, r.delta = []⟩ ∧
          rest.map (List.map MappingChunk.decoded) = some (meaning (r.start chunk.lcn) runs) := by
      intro rest
      cases rest with
      | none => simp
      | some rest => simp
    rw [hcons]
    refine and_congr_right fun hfirst => ?_
    obtain ⟨hstartRange, hrest⟩ := hrange
    have hstart : chunk'.lcn = r.start chunk.lcn := congrArg Decoded.lcn hfirst
    rw [← hstart] at hstartRange hrest ⊢
    exact ih hat.append.2 (by omega) hstartRange hrest

/-- A mapping-pairs array is decoded right, if and only if all its runs are plain: no byte of a
length is odd and above `0x80`, no allocated run starts at cluster 0, and a sparse run follows
on cluster 0, with a length whose last byte is below `0x80`. -/
theorem parseDataRun_decodes_iff (stream : Nat → UInt8) (attrLen : Nat) (runs : List Run)
    (hat : At stream 0 (encodeRuns runs ++ [0])) (hend : (encodeRuns runs).length ≤ attrLen)
    (hlt : attrLen < 2 ^ 32) (hrange : InRange 0 runs) :
    (decodeRuns stream attrLen (runs.length + 1) 0 mappingChunkInit).map
        (List.map MappingChunk.decoded) = some (meaning 0 runs) ↔ plainRuns 0 runs = true := by
  have hend' : 0 + (encodeRuns runs).length ≤ attrLen := by omega
  exact @decodeRuns_iff stream 0 attrLen mappingChunkInit runs hat hend' hlt
    ⟨by decide, by decide⟩ hrange

/-! ## Examples -/

/-- The array in memory, and zeros behind it. -/
def streamOf (runs : List Run) : Nat → UInt8 := fun i => (encodeRuns runs).getD i 0

/-- The stream of some runs has their bytes. -/
theorem streamOf_at (runs : List Run) : At (streamOf runs) 0 (encodeRuns runs ++ [0]) := by
  intro i b hi
  rw [Nat.zero_add, streamOf, List.getD_eq_getElem?_getD]
  rcases Nat.lt_or_ge i (encodeRuns runs).length with hlt | hge
  · rw [List.getElem?_append_left hlt] at hi
    rw [hi]
    rfl
  · rw [List.getElem?_append_right hge] at hi
    rw [List.getElem?_eq_none hge]
    have hzero := List.mem_of_getElem? hi
    exact (List.mem_singleton.mp hzero).symm

/-- A run whose fields take one byte each. -/
def shortRun (len delta : UInt8) : Run :=
  ⟨[len], [delta], Nat.le_refl 1, Nat.succ_pos 7, Nat.succ_pos 7⟩

/-- Four clusters from cluster 100 on, a hole of 16 clusters, and eight clusters from cluster 150
on. -/
def sampleRuns : List Run :=
  [shortRun 4 100, ⟨[16], [], Nat.le_refl 1, Nat.succ_pos 7, Nat.zero_le 8⟩, shortRun 8 50]

/-- Four runs, one of them a hole. -/
theorem parseDataRun_decodes_iff_sample :
    (decodeRuns (streamOf sampleRuns) 9 4 0 mappingChunkInit).map
        (List.map MappingChunk.decoded) = some (meaning 0 sampleRuns) ↔
      plainRuns 0 sampleRuns = true :=
  parseDataRun_decodes_iff (streamOf sampleRuns) 9 sampleRuns (streamOf_at sampleRuns) (by decide)
    (by decide) ⟨by decide, by decide, by decide, trivial⟩

/-- The hole behind an allocated run is read as allocated. -/
theorem parseDataRun_misreads : ¬∀ (stream : Nat → UInt8) (attrLen : Nat) (runs : List Run),
    At stream 0 (encodeRuns runs ++ [0]) → (encodeRuns runs).length ≤ attrLen →
      attrLen < 2 ^ 32 → InRange 0 runs →
        (decodeRuns stream attrLen (runs.length + 1) 0 mappingChunkInit).map
          (List.map MappingChunk.decoded) = some (meaning 0 runs) := by
  intro h
  have hall := h (streamOf sampleRuns) 9 sampleRuns (streamOf_at sampleRuns) (by decide)
    (by decide) ⟨by decide, by decide, by decide, trivial⟩
  have hread : (decodeRuns (streamOf sampleRuns) 9 4 0 mappingChunkInit).map
      (List.map MappingChunk.decoded) =
        some [⟨4, 100, false⟩, ⟨16, 100, false⟩, ⟨8, 150, false⟩] := by
    decide +kernel
  exact absurd (hread.symm.trans hall) (by decide)

end Liigboot.Fs.Ntfs
