import Liigboot.Adv.Tags

/-!
# What is left when a tag cannot be set

`adv_set` takes the old tag of an id out before it looks for room. When there is no room, the old
tag is gone.
-/

namespace Liigboot.Adv

/-- When `adv_set` reports an error, memory is as it was. -/
def Atomic (mem : Mem) (id : UInt8) (value : List UInt8) : Prop :=
  ∀ mem', advSet mem id value = some (true, mem') → mem' = mem

/-- The new tag fits behind the others. -/
def Fits (tags : List Tag) (id : UInt8) (value : List UInt8) : Prop :=
  adv0Data + (tagBytes (others tags id)).length + value.length < adv0Tail - 2

variable {mem mem' : Mem} {id : UInt8} {tags : List Tag} {value : List UInt8}

theorem TagList.room (h : TagList mem tags) : adv0Data + (tagBytes tags).length < adv0Tail := by
  have hfits := h.fits
  rw [adv0Tail]
  omega

/-- There are steps enough. -/
theorem TagList.length_lt (h : TagList mem tags) : tags.length < advLen := by
  have hfits := h.fits
  have hlength := @length_le_tagBytes tags
  omega

/-! ## Ids without a tag -/

/-- Without a tag of the id nothing is taken out. -/
theorem advSetLoop_absent (hid : id ≠ 0) {steps a : Nat} (hsteps : tags.length < steps)
    (hfits : a + (tagBytes tags).length < adv0Tail) (h : Holds mem a (tagBytes tags ++ [0]))
    (habsent : ∀ t ∈ tags, t.id ≠ id) :
    advSetLoop id steps mem a = some (mem, a + (tagBytes tags).length) := by
  induction tags generalizing steps a with
  | nil =>
    obtain ⟨steps, rfl⟩ := Nat.exists_eq_succ_of_ne_zero (Nat.ne_zero_of_lt hsteps)
    have hzero : mem a = 0 := (holds_cons.mp h).1
    rw [advSetLoop]
    dsimp only
    rw [hzero, if_neg hid.symm, if_pos rfl]
    rfl
  | cons t ts ih =>
    obtain ⟨steps, rfl⟩ := Nat.exists_eq_succ_of_ne_zero (Nat.ne_zero_of_lt hsteps)
    obtain ⟨ht, hts⟩ := List.forall_mem_cons.mp habsent
    rw [tagBytes_cons, List.length_append, t.length_bytes] at hfits ⊢
    rw [tagBytes_cons, List.append_assoc] at h
    obtain ⟨htag, hlen, -, hrest⟩ := holds_tag h
    rw [advSetLoop]
    dsimp only
    rw [htag, hlen, if_neg ht, if_neg t.id_ne, if_pos (by omega),
      ih (Nat.lt_of_succ_lt_succ hsteps) (by omega) hrest hts]
    congr 2
    omega

/-- An end of memory that is zero does not change when two bytes of it are taken out. -/
theorem taken_out_zeros {a : Nat} (ha : a + 2 ≤ adv0Tail)
    (hzeros : ∀ c, a ≤ c → c < adv0Tail → mem c = 0) :
    put (repMovsb mem (adv0Tail - (a + 2)) (a + 2) a) (a + (adv0Tail - (a + 2))) 0 = mem := by
  funext c
  by_cases hlast : c = a + (adv0Tail - (a + 2))
  · rw [hlast, put_self, hzeros _ (by omega) (by omega)]
  · rw [put_of_ne _ hlast, repMovsb_eq (Or.inl (by omega))]
    split_ifs with hmoved
    · rw [hzeros _ (by omega) (by omega), hzeros c (by omega) (by omega)]
    · rfl

/-- The id zero is found at the end of the list, where there are only zeros to be taken out: the
loop goes on for ever, unless the list ends with the last byte. -/
theorem advSetLoop_zero {steps a : Nat} (hfits : a + (tagBytes tags).length < adv0Tail)
    (h : Holds mem a (tagBytes tags))
    (hzeros : ∀ c, a + (tagBytes tags).length ≤ c → c < adv0Tail → mem c = 0)
    {di : Nat} (hloop : advSetLoop 0 steps mem a = some (mem', di)) : mem' = mem := by
  induction steps generalizing tags a with
  | zero => cases hloop
  | succ steps ih =>
    rw [advSetLoop] at hloop
    dsimp only at hloop
    cases tags with
    | nil =>
      have hnil : (tagBytes []).length = 0 := rfl
      rw [hnil] at hfits hzeros
      rw [if_pos (hzeros a le_rfl hfits)] at hloop
      split_ifs at hloop with hnuke
      · exact (Prod.mk.inj (Option.some.inj hloop)).1.symm
      · have hlen : mem (a + 1) = 0 := hzeros _ (by omega) (by omega)
        have hsi : a + 2 + (mem (a + 1)).toNat = a + 2 := by rw [hlen]; rfl
        rw [hsi] at hnuke hloop
        rw [taken_out_zeros (Nat.le_of_not_lt hnuke) hzeros] at hloop
        exact ih hfits h hzeros hloop
    | cons t ts =>
      rw [tagBytes_cons, List.length_append, t.length_bytes] at hfits hzeros
      rw [tagBytes_cons] at h
      obtain ⟨htag, hlen, -, hrest⟩ := holds_tag h
      rw [htag, hlen, if_neg t.id_ne, if_neg t.id_ne, if_pos (by omega)] at hloop
      exact ih (by omega) hrest (fun c hc => hzeros c (by omega)) hloop

/-! ## The tag that is taken out -/

/-- Where a list of tags is, there is none without one of them. -/
theorem not_holds_others {a : Nat} (hid : id ≠ 0) (h : Holds mem a (tagBytes tags ++ [0]))
    (hmem : ∃ t ∈ tags, t.id = id) : ¬Holds mem a (tagBytes (others tags id) ++ [0]) := by
  induction tags generalizing a with
  | nil =>
    obtain ⟨t, ht, -⟩ := hmem
    exact absurd ht List.not_mem_nil
  | cons t ts ih =>
    intro hothers
    rw [tagBytes_cons, List.append_assoc] at h
    obtain ⟨htag, -, -, hrest⟩ := holds_tag h
    by_cases heq : t.id = id
    · -- another tag, or the end of the list, would begin with the id
      rw [others_cons_self heq] at hothers
      cases hts : others ts id with
      | nil =>
        rw [hts] at hothers
        have hzero : mem a = 0 := (holds_cons.mp hothers).1
        exact hid (heq.symm.trans (htag.symm.trans hzero))
      | cons u us =>
        rw [hts, tagBytes_cons, List.append_assoc] at hothers
        have hu : mem a = u.id := (holds_tag hothers).1
        have hne : u.id ≠ id := (mem_others (hts ▸ List.mem_cons_self : u ∈ others ts id)).2
        exact hne (hu.symm.trans (htag.trans heq))
    · rw [others_cons_of_ne heq, tagBytes_cons, List.append_assoc] at hothers
      obtain ⟨-, -, -, hrest'⟩ := holds_tag hothers
      obtain ⟨u, hu, huid⟩ := hmem
      refine ih hrest ⟨u, ?_, huid⟩ hrest'
      exact (List.mem_cons.mp hu).resolve_left fun hut => heq (hut ▸ huid)

/-! ## Errors -/

/-- The errors of `adv_set`: the value is too long, or does not fit behind the other tags. -/
theorem advSet_error_iff : advSet mem id value = some (true, mem') ↔
    0x100 ≤ value.length ∧ mem' = mem ∨ value.length < 0x100 ∧ value ≠ [] ∧
      ∃ di, advSetLoop id advLen mem adv0Data = some (mem', di) ∧
        adv0Tail - 2 ≤ di + value.length := by
  rw [advSet]
  by_cases hlong : 0x100 ≤ value.length
  · rw [if_pos hlong]
    constructor
    · intro h
      exact Or.inl ⟨hlong, (Prod.mk.inj (Option.some.inj h)).2.symm⟩
    · rintro (⟨-, rfl⟩ | ⟨hlt, -⟩)
      · rfl
      · exact absurd hlong (Nat.not_le.mpr hlt)
  · rw [if_neg hlong]
    cases hloop : advSetLoop id advLen mem adv0Data with
    | none =>
      constructor
      · intro h
        cases h
      · rintro (⟨hle, -⟩ | ⟨-, -, di, h, -⟩)
        · exact absurd hle hlong
        · cases h
    | some found =>
      obtain ⟨mem₁, di⟩ := found
      dsimp only
      split_ifs with hnil hroom
      · constructor
        · intro h
          cases h
        · rintro (⟨hle, -⟩ | ⟨-, hne, -⟩)
          · exact absurd hle hlong
          · exact absurd (List.length_eq_zero_iff.mp hnil) hne
      · constructor
        · intro h
          obtain rfl := (Prod.mk.inj (Option.some.inj h)).2
          exact Or.inr ⟨Nat.lt_of_not_le hlong, fun h => hnil (List.length_eq_zero_iff.mpr h),
            di, rfl, hroom⟩
        · rintro (⟨hle, -⟩ | ⟨-, -, di', h, -⟩)
          · exact absurd hle hlong
          · rw [(Prod.mk.inj (Option.some.inj h)).1]
      · constructor
        · intro h
          cases h
        · rintro (⟨hle, -⟩ | ⟨-, -, di', h, hle⟩)
          · exact absurd hle hlong
          · rw [← (Prod.mk.inj (Option.some.inj h)).2] at hle
            exact absurd hle hroom

/-- A tag is lost when its new value does not fit. -/
theorem not_atomic (h : TagList mem tags) (hpresent : ∃ t ∈ tags, t.id = id) (hne : value ≠ [])
    (hle : value.length ≤ 255) (hfull : ¬Fits tags id value) : ¬Atomic mem id value := by
  intro hatomic
  have hid : id ≠ 0 := by
    obtain ⟨t, -, rfl⟩ := hpresent
    exact t.id_ne
  obtain ⟨mem₁, hloop, hothers, -⟩ := advSetLoop_spec hid h.length_lt h.room h.holds
  have herror := advSet_error_iff.mpr (Or.inr ⟨Nat.lt_succ_of_le hle, hne, _, hloop,
    Nat.le_of_not_lt hfull⟩)
  rw [hatomic mem₁ herror] at hothers
  exact not_holds_others hid h.holds hpresent hothers

/-- When `adv_set` reports an error, the vector is as it was: exactly when no tag has the id, or
the value is empty, or it is too long for any tag, or there is room for it. -/
theorem adv_set_atomic_iff (mem : Mem) (tags : List Tag) (h : TagList mem tags) (id : UInt8)
    (hzeros : id = 0 → ZerosBehind mem tags) (value : List UInt8) :
    Atomic mem id value ↔
      (∀ t ∈ tags, t.id ≠ id) ∨ value = [] ∨ 255 < value.length ∨ Fits tags id value := by
  constructor
  · intro hatomic
    by_contra hnot
    push Not at hnot
    obtain ⟨hpresent, hne, hle, hfull⟩ := hnot
    exact not_atomic h hpresent hne hle hfull hatomic
  · intro hcond mem' herror
    rcases advSet_error_iff.mp herror with ⟨-, heq⟩ | ⟨hlt, hne, di, hloop, hfull⟩
    · exact heq
    by_cases hid : id = 0
    · subst hid
      exact advSetLoop_zero h.room (holds_append.mp h.holds).1 (hzeros rfl) hloop
    · rcases hcond with habsent | hnil | hlong | hfit
      · rw [advSetLoop_absent hid h.length_lt h.room h.holds habsent] at hloop
        exact (Prod.mk.inj (Option.some.inj hloop)).1.symm
      · exact absurd hnil hne
      · omega
      · obtain ⟨mem₁, hloop', -⟩ := advSetLoop_spec hid h.length_lt h.room h.holds
        rw [hloop'] at hloop
        rw [← (Prod.mk.inj (Option.some.inj hloop)).2] at hfull
        exact absurd hfit (Nat.not_lt.mpr hfull)

/-! ## Examples -/

theorem adv_set_atomic_iff_sample : Atomic sampleMem 1 [0x64] ↔
    (∀ t ∈ sampleTags, t.id ≠ 1) ∨ ([0x64] : List UInt8) = [] ∨
      255 < ([0x64] : List UInt8).length ∨ Fits sampleTags 1 [0x64] :=
  adv_set_atomic_iff sampleMem sampleTags sampleTags_list 1 (fun h => absurd h (by decide)) [0x64]

theorem crowded_one : (1 : UInt8) ≠ 0 := by decide

theorem crowded_two : (2 : UInt8) ≠ 0 := by decide

/-- A tag 1 of one byte and a tag 2 of 255 bytes. -/
def crowdedTags : List Tag :=
  [⟨1, [0x61], crowded_one, Nat.one_lt_two_pow (by decide : 8 ≠ 0)⟩,
    ⟨2, List.replicate 255 0x62, crowded_two,
      Nat.lt_succ_of_le (Nat.le_of_eq List.length_replicate)⟩]

/-- A vector with these tags. -/
def crowdedMem : Mem := fun a => (tagBytes crowdedTags ++ [0]).getD (a - adv0Data) 0

theorem crowdedTags_list : TagList crowdedMem crowdedTags := by
  refine ⟨by decide, by decide +kernel, fun i b hb => ?_⟩
  rw [crowdedMem, Nat.add_sub_cancel_left, List.getD_eq_getElem?_getD, hb]
  rfl

/-- Tag 1 is lost when it is to be set to 255 bytes. -/
theorem adv_set_loses_tag : ¬∀ (mem : Mem) (tags : List Tag) (id : UInt8) (value : List UInt8),
    TagList mem tags → (id = 0 → ZerosBehind mem tags) → Atomic mem id value := by
  intro h
  refine not_atomic crowdedTags_list ⟨_, List.mem_cons_self, rfl⟩ ?_ ?_ ?_
    (h crowdedMem crowdedTags 1 (List.replicate 255 0x63) crowdedTags_list
      (fun h => absurd h (by decide)))
  · exact List.cons_ne_nil _ _
  · rw [List.length_replicate]
  · rw [Fits, List.length_replicate]
    decide +kernel

end Liigboot.Adv
