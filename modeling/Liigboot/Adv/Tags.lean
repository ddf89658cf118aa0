import Liigboot.Lib.StringOps
import Mathlib.Algebra.Group.Nat.Defs
import Mathlib.Data.List.Nodup

/-!
# The tag list of the auxiliary data vector

The data area of the vector is a list of tags, each with an id, a length and its bytes, with a zero
behind the last one. `adv_set` takes the old tag of an id out by moving what follows it down, goes
on from there, and writes the new tag behind the last one.
-/

namespace Liigboot.Adv

/-! ## The source -/

/-- Memory, with addresses from `adv0` on. -/
abbrev Mem := Nat → UInt8

/-- `ADV_LEN`. -/
def advLen : Nat := 500

/-- `adv0.data`. -/
def adv0Data : Nat := 8

/-- `adv0.tail`. -/
def adv0Tail : Nat := adv0Data + advLen

/-- The loop of `adv_get`, for a number of steps that is enough: `CX` and `SI`. -/
def advGetLoop (mem : Mem) (dl : UInt8) : Nat → Nat → Option (Nat × Nat)
  | 0, _ => none
  | steps + 1, si =>
    let al := mem si
    if al = dl then
      let cx := (mem (si + 1)).toNat
      let si := si + 2
      if cx + si ≤ adv0Tail then some (cx, si) else some (0, si)
    else if al = 0 then some (0, si + 1)
    else
      let si := si + 2 + (mem (si + 1)).toNat
      if si < adv0Tail then advGetLoop mem dl steps si else some (0, si)

/-- `adv_get`: `CX` and `SI`. Each pass of the loop goes on by two bytes at least. -/
def advGet (mem : Mem) (dl : UInt8) : Option (Nat × Nat) := advGetLoop mem dl advLen adv0Data

/-- The bytes that `adv_get` returns, none when it finds nothing. -/
def advString (mem : Mem) (dl : UInt8) : Option (List UInt8) :=
  (advGet mem dl).map fun (cx, si) => (List.range cx).map fun i => mem (si + i)

/-- The loop of `adv_set`, for a number of steps that is enough: memory, and `SI` where the new tag
goes. -/
def advSetLoop (dl : UInt8) : Nat → Mem → Nat → Option (Mem × Nat)
  | 0, _, _ => none
  | steps + 1, mem, si =>
    let al := mem si
    if al = dl then
      let di := si
      let si := si + 2 + (mem (si + 1)).toNat
      if adv0Tail < si then some (mem, di)
      else
        let cx := adv0Tail - si
        let mem := put (repMovsb mem cx si di) (di + cx) 0
        advSetLoop dl steps mem di
    else if al = 0 then some (mem, si)
    else
      let si := si + 2 + (mem (si + 1)).toNat
      if si < adv0Tail then advSetLoop dl steps mem si else some (mem, si)

/-- The zeros that `adv_set` writes last. The count is a 16-bit number. -/
def zeroFill (mem : Mem) (di : Nat) : Mem :=
  repStosb mem 0 ((adv0Tail + 0x10000 - di) % 0x10000) di

/-- `adv_set`: the carry flag, and memory. The bytes at `FS:BX` are apart from the vector. A pass of
the loop goes on by two bytes at least or takes a tag out. -/
def advSet (mem : Mem) (dl : UInt8) (value : List UInt8) : Option (Bool × Mem) :=
  if 0x100 ≤ value.length then some (true, mem)
  else
    match advSetLoop dl advLen mem adv0Data with
    | none => none
    | some (mem, di) =>
      let cx := value.length
      if cx = 0 then some (false, zeroFill mem di)
      else if di + cx ≥ adv0Tail - 2 then some (true, mem)
      else
        let mem := put (put mem di dl) (di + 1) (UInt8.ofNat cx)
        some (false, zeroFill (repMovsbFrom mem value (di + 2)) (di + 2 + cx))

/-! ## Tag lists -/

/-- A tag. -/
structure Tag where
  id : UInt8
  data : List UInt8
  id_ne : id ≠ 0
  length_lt : data.length < 0x100

/-- The bytes of a tag. -/
def Tag.bytes (t : Tag) : List UInt8 := t.id :: UInt8.ofNat t.data.length :: t.data

/-- The bytes of some tags. -/
def tagBytes (tags : List Tag) : List UInt8 := tags.flatMap Tag.bytes

/-- The data area is a list of some tags with different ids, and a zero behind them. -/
structure TagList (mem : Mem) (tags : List Tag) : Prop where
  distinct : (tags.map Tag.id).Nodup
  fits : (tagBytes tags).length < advLen
  holds : Holds mem adv0Data (tagBytes tags ++ [0])

/-- Behind the last tag there are only zeros. -/
def ZerosBehind (mem : Mem) (tags : List Tag) : Prop :=
  ∀ a, adv0Data + (tagBytes tags).length ≤ a → a < adv0Tail → mem a = 0

/-- The bytes that some tags have for an id. -/
def tagData (tags : List Tag) (id : UInt8) : List UInt8 :=
  ((tags.find? fun t => t.id = id).map Tag.data).getD []

variable {mem mem' : Mem} {id : UInt8} {tags : List Tag} {t : Tag}

/-- A tag takes two bytes more than its data. -/
theorem Tag.length_bytes (t : Tag) : t.bytes.length = t.data.length + 2 := by
  rw [Tag.bytes, List.length_cons, List.length_cons]

/-- The bytes of the first tag, and of the others. -/
theorem tagBytes_cons : tagBytes (t :: tags) = t.bytes ++ tagBytes tags := by
  rw [tagBytes, List.flatMap_cons, ← tagBytes]

/-- The bytes of two lists of tags. -/
theorem tagBytes_append {ts : List Tag} : tagBytes (tags ++ ts) = tagBytes tags ++ tagBytes ts := by
  rw [tagBytes, List.flatMap_append, ← tagBytes, ← tagBytes]

/-- Tags take two bytes at least. -/
theorem length_le_tagBytes : 2 * tags.length ≤ (tagBytes tags).length := by
  induction tags with
  | nil => exact Nat.zero_le _
  | cons t ts ih =>
    rw [tagBytes_cons, List.length_append, t.length_bytes, List.length_cons]
    omega

/-- A tag in memory: its id, its length and its bytes. -/
theorem holds_tag {a : Nat} {rest : List UInt8} (h : Holds mem a (t.bytes ++ rest)) :
    mem a = t.id ∧ (mem (a + 1)).toNat = t.data.length ∧ Holds mem (a + 2) t.data ∧
      Holds mem (a + 2 + t.data.length) rest := by
  rw [holds_append, Tag.bytes, holds_cons, holds_cons] at h
  obtain ⟨⟨hid, hlen, hdata⟩, hrest⟩ := h
  refine ⟨hid, ?_, hdata, ?_⟩
  · rw [hlen]
    exact UInt8.toNat_ofNat_of_lt' t.length_lt
  · rw [List.length_cons, List.length_cons] at hrest
    have hsame : a + 2 + t.data.length = a + (t.data.length + 1 + 1) := by omega
    rw [hsame]
    exact hrest

theorem tagData_cons_self (h : t.id = id) : tagData (t :: tags) id = t.data := by
  simp only [tagData, List.find?_cons, h, decide_true, Option.map_some, Option.getD_some]

/-- A tag of another id is passed by. -/
theorem tagData_cons_of_ne (h : t.id ≠ id) : tagData (t :: tags) id = tagData tags id := by
  simp only [tagData, List.find?_cons, h, decide_false]

/-! ## Getting -/

/-- From a place on, `adv_get` finds the tag that follows. -/
theorem advGetLoop_spec (hid : id ≠ 0) {steps a : Nat} (hsteps : tags.length < steps)
    (hfits : a + (tagBytes tags).length < adv0Tail) (h : Holds mem a (tagBytes tags ++ [0])) :
    ∃ cx si, advGetLoop mem id steps a = some (cx, si) ∧
      (List.range cx).map (fun i => mem (si + i)) = tagData tags id := by
  induction tags generalizing steps a with
  | nil =>
    obtain ⟨steps, rfl⟩ := Nat.exists_eq_succ_of_ne_zero (Nat.ne_zero_of_lt hsteps)
    have hzero : mem a = 0 := (holds_cons.mp h).1
    rw [advGetLoop]
    dsimp only
    rw [hzero, if_neg hid.symm, if_pos rfl]
    exact ⟨0, a + 1, rfl, rfl⟩
  | cons t ts ih =>
    obtain ⟨steps, rfl⟩ := Nat.exists_eq_succ_of_ne_zero (Nat.ne_zero_of_lt hsteps)
    rw [tagBytes_cons, List.length_append, t.length_bytes] at hfits
    rw [tagBytes_cons, List.append_assoc] at h
    obtain ⟨htag, hlen, hdata, hrest⟩ := holds_tag h
    rw [advGetLoop]
    dsimp only
    rw [htag, hlen]
    by_cases heq : t.id = id
    · rw [if_pos heq, if_pos (by omega)]
      exact ⟨_, _, rfl, by rw [hdata.map_range, tagData_cons_self heq]⟩
    · rw [if_neg heq, if_neg t.id_ne, if_pos (by omega), tagData_cons_of_ne heq]
      exact ih (Nat.lt_of_succ_lt_succ hsteps) (by omega) hrest

/-- `adv_get` returns the bytes of the tag with an id. -/
theorem advString_eq (hid : id ≠ 0) (h : TagList mem tags) :
    advString mem id = some (tagData tags id) := by
  have hfits := h.fits
  have hlength := @length_le_tagBytes tags
  rw [advLen] at hfits
  obtain ⟨cx, si, hget, hbytes⟩ := @advGetLoop_spec mem id tags hid advLen adv0Data
    (by rw [advLen]; omega) (by rw [adv0Tail, advLen]; omega) h.holds
  rw [advString, advGet, hget, Option.map_some]
  exact congrArg some hbytes

/-! ## Setting -/

/-- The tags without those of an id. -/
def others (tags : List Tag) (id : UInt8) : List Tag := tags.filter fun t => t.id ≠ id

theorem others_cons_self (h : t.id = id) : others (t :: tags) id = others tags id := by
  simp only [others, List.filter_cons, h, ne_eq, not_true_eq_false, decide_false,
    Bool.false_eq_true, if_false]

/-- A tag of another one is kept. -/
theorem others_cons_of_ne (h : t.id ≠ id) : others (t :: tags) id = t :: others tags id := by
  simp only [others, List.filter_cons, h, ne_eq, not_false_eq_true, decide_true, if_true]

theorem length_others_le : (tagBytes (others tags id)).length ≤ (tagBytes tags).length := by
  induction tags with
  | nil => exact le_rfl
  | cons t ts ih =>
    by_cases heq : t.id = id
    · rw [others_cons_self heq, tagBytes_cons, List.length_append]
      omega
    · rw [others_cons_of_ne heq, tagBytes_cons, tagBytes_cons, List.length_append,
        List.length_append]
      omega

/-- A tag is taken out: what follows it comes to its place. -/
theorem holds_taken_out {a len : Nat} {rest : List UInt8}
    (hfits : a + 2 + len + rest.length ≤ adv0Tail) (h : Holds mem (a + 2 + len) rest) :
    Holds (put (repMovsb mem (adv0Tail - (a + 2 + len)) (a + 2 + len) a)
      (a + (adv0Tail - (a + 2 + len))) 0) a rest := by
  intro i b hb
  have hi := (List.getElem?_eq_some_iff.mp hb).1
  rw [put_of_ne _ (by omega), repMovsb_eq (Or.inl (by omega)), if_pos (by omega),
    Nat.add_sub_cancel_left]
  exact h i b hb

/-- From a place on, `adv_set` takes the tag with an id out and goes behind the last one. In front
of the place memory stays as it is. -/
theorem advSetLoop_spec (hid : id ≠ 0) {steps a : Nat} (hsteps : tags.length < steps)
    (hfits : a + (tagBytes tags).length < adv0Tail) (h : Holds mem a (tagBytes tags ++ [0])) :
    ∃ mem', advSetLoop id steps mem a =
        some (mem', a + (tagBytes (others tags id)).length) ∧
      Holds mem' a (tagBytes (others tags id) ++ [0]) ∧
      ∀ c, c < a ∨ adv0Tail ≤ c → mem' c = mem c := by
  induction tags generalizing steps a mem with
  | nil =>
    obtain ⟨steps, rfl⟩ := Nat.exists_eq_succ_of_ne_zero (Nat.ne_zero_of_lt hsteps)
    have hzero : mem a = 0 := (holds_cons.mp h).1
    refine ⟨mem, ?_, h, fun _ _ => rfl⟩
    rw [advSetLoop]
    dsimp only
    rw [hzero, if_neg hid.symm, if_pos rfl]
    rfl
  | cons t ts ih =>
    obtain ⟨steps, rfl⟩ := Nat.exists_eq_succ_of_ne_zero (Nat.ne_zero_of_lt hsteps)
    rw [tagBytes_cons, List.length_append, t.length_bytes] at hfits
    rw [tagBytes_cons, List.append_assoc] at h
    obtain ⟨htag, hlen, -, hrest⟩ := holds_tag h
    rw [advSetLoop]
    dsimp only
    rw [htag, hlen]
    by_cases heq : t.id = id
    · have hmoved :=
        holds_taken_out (by rw [List.length_append, List.length_singleton]; omega) hrest
      obtain ⟨mem', hloop, hholds, hframe⟩ :=
        ih (Nat.lt_of_succ_lt_succ hsteps) (by omega) hmoved
      rw [if_pos heq, if_neg (by omega), others_cons_self heq]
      refine ⟨mem', hloop, hholds, fun c hc => ?_⟩
      rw [hframe c hc, put_of_ne _ (by omega), repMovsb_eq (Or.inl (by omega)), if_neg (by omega)]
    · obtain ⟨mem', hloop, hholds, hframe⟩ :=
        ih (Nat.lt_of_succ_lt_succ hsteps) (by omega) hrest
      rw [if_neg heq, if_neg t.id_ne, if_pos (by omega), others_cons_of_ne heq, tagBytes_cons,
        List.append_assoc]
      refine ⟨mem', ?_, holds_append.mpr ⟨?_, ?_⟩, fun c hc => hframe c (by omega)⟩
      · rw [hloop, List.length_append, t.length_bytes]
        congr 2
        omega
      · refine (holds_append.mp h).1.congr fun c _ hc => hframe c (Or.inl ?_)
        rw [t.length_bytes] at hc
        omega
      · have hplace : a + (t.data.length + 2) = a + 2 + t.data.length := by omega
        rw [t.length_bytes, hplace]
        exact hholds

/-! ## The result -/

/-- The tags of the other ids. -/
theorem mem_others {t : Tag} (h : t ∈ others tags id) : t ∈ tags ∧ t.id ≠ id := by
  obtain ⟨hmem, hne⟩ := List.mem_filter.mp h
  exact ⟨hmem, of_decide_eq_true hne⟩

/-- Tags of other ids behind do not matter. -/
theorem tagData_append_of_ne {ts : List Tag} (h : ∀ t ∈ ts, t.id ≠ id) :
    tagData (tags ++ ts) id = tagData tags id := by
  have hnone : ts.find? (fun t => t.id = id) = none :=
    List.find?_eq_none.mpr fun t ht heq => h t ht (of_decide_eq_true heq)
  rw [tagData, List.find?_append, hnone, Option.or_none, ← tagData]

theorem tagData_others_self : tagData (others tags id) id = [] := by
  have hnone : (others tags id).find? (fun t => t.id = id) = none :=
    List.find?_eq_none.mpr fun t ht heq => (mem_others ht).2 (of_decide_eq_true heq)
  rw [tagData, hnone]
  rfl

/-- Other ids have the same data. -/
theorem tagData_others {other : UInt8} (h : other ≠ id) :
    tagData (others tags id) other = tagData tags other := by
  induction tags with
  | nil => rfl
  | cons t ts ih =>
    by_cases heq : t.id = id
    · rw [others_cons_self heq, ih, tagData_cons_of_ne (fun h' => h (h'.symm.trans heq))]
    · rw [others_cons_of_ne heq]
      by_cases heq' : t.id = other
      · rw [tagData_cons_self heq', tagData_cons_self heq']
      · rw [tagData_cons_of_ne heq', tagData_cons_of_ne heq', ih]

/-- The ids stay distinct. -/
theorem others_distinct (h : (tags.map Tag.id).Nodup) :
    ((others tags id).map Tag.id).Nodup := by
  refine h.sublist (List.Sublist.map _ ?_)
  exact List.filter_sublist

/-- The tag that is written: none for an empty value. -/
def newTags (id : UInt8) (value : List UInt8) (hid : id ≠ 0) (hlt : value.length < 0x100) :
    List Tag :=
  if value = [] then [] else [⟨id, value, hid, hlt⟩]

/-- Tags in memory and zeros up to the end are a tag list. -/
theorem tagList_of_zeros (hdistinct : (tags.map Tag.id).Nodup)
    (hfits : (tagBytes tags).length < advLen) (h : Holds mem adv0Data (tagBytes tags)) :
    TagList (zeroFill mem (adv0Data + (tagBytes tags).length)) tags ∧
      ZerosBehind (zeroFill mem (adv0Data + (tagBytes tags).length)) tags := by
  rw [advLen] at hfits
  have hcount : (adv0Tail + 0x10000 - (adv0Data + (tagBytes tags).length)) % 0x10000 =
      adv0Tail - (adv0Data + (tagBytes tags).length) := by
    rw [adv0Tail, advLen, adv0Data]
    omega
  have hzeros : ZerosBehind (zeroFill mem (adv0Data + (tagBytes tags).length)) tags := by
    intro a hlo hhi
    rw [zeroFill, hcount, repStosb_eq, if_pos (by omega)]
  refine ⟨⟨hdistinct, hfits, holds_append.mpr ⟨h.congr fun c _ hc => ?_, ?_⟩⟩, hzeros⟩
  · rw [zeroFill, repStosb_eq, if_neg (by omega)]
  · refine holds_cons.mpr ⟨hzeros _ le_rfl ?_, holds_nil _ _⟩
    rw [adv0Tail, advLen]
    omega

/-- What `adv_set` leaves when it succeeds: the other tags, the new one behind them, and zeros. -/
theorem advSet_spec (h : TagList mem tags) (hid : id ≠ 0) {value : List UInt8}
    (hlt : value.length < 0x100) :
    ∃ cf mem', advSet mem id value = some (cf, mem') ∧ (cf = false →
      TagList mem' (others tags id ++ newTags id value hid hlt) ∧
        ZerosBehind mem' (others tags id ++ newTags id value hid hlt)) := by
  have hfits := h.fits
  have hlength := @length_le_tagBytes tags
  have hkept := @length_others_le id tags
  have hdistinct := @others_distinct id tags h.distinct
  rw [advLen] at hfits
  obtain ⟨mem₁, hloop, hholds, -⟩ := @advSetLoop_spec mem id tags hid advLen adv0Data
    (by rw [advLen]; omega) (by rw [adv0Tail, advLen]; omega) h.holds
  have hothers := (holds_append.mp hholds).1
  rw [advSet, if_neg (Nat.not_le.mpr hlt), hloop]
  dsimp only
  by_cases hnil : value = []
  · rw [if_pos (List.length_eq_zero_iff.mpr hnil), newTags, if_pos hnil, List.append_nil]
    refine ⟨false, _, rfl, fun _ => tagList_of_zeros hdistinct ?_ hothers⟩
    rw [advLen]
    omega
  · rw [if_neg (fun heq => hnil (List.length_eq_zero_iff.mp heq)), newTags, if_neg hnil]
    by_cases hroom : adv0Data + (tagBytes (others tags id)).length + value.length ≥ adv0Tail - 2
    · rw [if_pos hroom]
      exact ⟨true, _, rfl, fun hcf => nomatch hcf⟩
    · rw [if_neg hroom]
      refine ⟨false, _, rfl, fun _ => ?_⟩
      generalize hnew : (⟨id, value, hid, hlt⟩ : Tag) = new
      have hnewBytes : (tagBytes [new]) = id :: UInt8.ofNat value.length :: value := by
        rw [← hnew, tagBytes, List.flatMap_singleton, Tag.bytes]
      have htotal : (tagBytes (others tags id ++ [new])).length =
          (tagBytes (others tags id)).length + (value.length + 2) := by
        rw [tagBytes_append, List.length_append, hnewBytes]
        rfl
      have hplace : adv0Data + (tagBytes (others tags id)).length + 2 + value.length =
          adv0Data + (tagBytes (others tags id ++ [new])).length := by
        rw [htotal]
        omega
      rw [hplace]
      refine tagList_of_zeros ?_ ?_ ?_
      · rw [List.map_append, List.map_singleton]
        refine List.nodup_append.mpr ⟨hdistinct, List.nodup_singleton _, ?_⟩
        intro a ha b hb heq
        obtain ⟨t, ht, rfl⟩ := List.mem_map.mp ha
        rw [List.mem_singleton.mp hb, ← hnew] at heq
        exact (mem_others ht).2 heq
      · rw [adv0Tail, advLen] at hroom
        rw [htotal, advLen]
        omega
      · rw [tagBytes_append, hnewBytes]
        refine holds_append.mpr ⟨hothers.congr fun c _ hc => ?_, holds_cons.mpr ⟨?_,
          holds_cons.mpr ⟨?_, repMovsbFrom_holds _ _⟩⟩⟩
        · rw [repMovsbFrom_of_lt (by omega), put_of_ne _ (by omega), put_of_ne _ (by omega)]
        · rw [repMovsbFrom_of_lt (by omega), put_of_ne _ (by omega), put_self]
        · rw [repMovsbFrom_of_lt (by omega), put_self]

theorem tagData_set_self {value : List UInt8} (hid : id ≠ 0) (hlt : value.length < 0x100) :
    tagData (others tags id ++ newTags id value hid hlt) id = value := by
  have hnone : (others tags id).find? (fun t => t.id = id) = none :=
    List.find?_eq_none.mpr fun t ht heq => (mem_others ht).2 (of_decide_eq_true heq)
  rw [newTags]
  split_ifs with hnil
  · rw [List.append_nil, tagData_others_self, hnil]
  · rw [tagData, List.find?_append, hnone, Option.none_or, ← tagData]
    exact tagData_cons_self rfl

/-- The data of another id are the ones before. -/
theorem tagData_set_other {value : List UInt8} {other : UInt8} (hid : id ≠ 0)
    (hlt : value.length < 0x100) (hne : other ≠ id) :
    tagData (others tags id ++ newTags id value hid hlt) other = tagData tags other := by
  rw [tagData_append_of_ne, tagData_others hne]
  intro t ht
  rw [newTags] at ht
  split_ifs at ht
  · exact absurd ht List.not_mem_nil
  · rw [List.mem_singleton.mp ht]
    exact hne.symm

/-- `adv_set` ends on a tag list. When it succeeds, `adv_get` returns the new bytes for its id, and
what it returned for every other one; and the data area is a tag list again, with zeros behind. -/
theorem adv_set_get (mem : Mem) (tags : List Tag) (h : TagList mem tags) (id : UInt8)
    (hid : id ≠ 0) (value : List UInt8) (hlt : value.length ≤ 255) :
    ∃ cf mem', advSet mem id value = some (cf, mem') ∧ (cf = false →
      advString mem' id = some value ∧
      (∀ other, other ≠ 0 → other ≠ id → advString mem' other = advString mem other) ∧
      ∃ tags', TagList mem' tags' ∧ ZerosBehind mem' tags') := by
  have hlt' : value.length < 0x100 := Nat.lt_succ_of_le hlt
  obtain ⟨cf, mem', hset, hresult⟩ := advSet_spec h hid hlt'
  refine ⟨cf, mem', hset, fun hcf => ?_⟩
  obtain ⟨hlist, hzeros⟩ := hresult hcf
  refine ⟨?_, fun other hother hne => ?_, _, hlist, hzeros⟩
  · rw [advString_eq hid hlist, tagData_set_self]
  · rw [advString_eq hother hlist, advString_eq hother h, tagData_set_other hid hlt' hne]

/-- A vector with a tag 1 of two bytes and a tag 2 of one byte. -/
def sampleMem : Mem := fun a => [1, 2, 0x61, 0x62, 2, 1, 0x63].getD (a - 8) 0

def sampleTags : List Tag :=
  [⟨1, [0x61, 0x62], by decide, by decide⟩, ⟨2, [0x63], by decide, by decide⟩]

/-- The sample is a tag list. -/
theorem sampleTags_list : TagList sampleMem sampleTags := by
  refine ⟨by decide, by decide, ?_⟩
  have hbytes : tagBytes sampleTags ++ [0] = [1, 2, 0x61, 0x62, 2, 1, 0x63, 0] := by decide
  rw [hbytes]
  simp only [holds_cons]
  refine ⟨rfl, rfl, rfl, rfl, rfl, rfl, rfl, rfl, holds_nil _ _⟩

/-- The first tag gets shorter, and the second one moves up. -/
theorem adv_set_get_sample : ∃ mem', advSet sampleMem 1 [0x64] = some (false, mem') ∧
    advString mem' 1 = some [0x64] ∧
    (∀ other, other ≠ 0 → other ≠ 1 → advString mem' other = advString sampleMem other) ∧
    ∃ tags', TagList mem' tags' ∧ ZerosBehind mem' tags' := by
  obtain ⟨cf, mem', hset, hresult⟩ :=
    adv_set_get sampleMem sampleTags sampleTags_list 1 (by decide) [0x64] (by decide)
  have hcf : (advSet sampleMem 1 [0x64]).map Prod.fst = some false := by decide +kernel
  rw [hset] at hcf
  obtain rfl : cf = false := Option.some.inj hcf
  exact ⟨mem', hset, hresult rfl⟩

end Liigboot.Adv
