import Liigboot.Fs.Ntfs.Attributes

/-!
# Attributes and their lists

The attributes of a record in memory, and the entries of an attribute list. The entries lie in the
record itself, or in some runs of clusters.
-/

namespace Liigboot.Fs.Ntfs

/-! ## Attributes -/

/-- An attribute of a record. -/
structure AttrHeader where
  type : Nat
  len : Nat
  type_ne : type ≠ atEnd

/-- The attributes from an address on, up to the end of them. -/
inductive AttrsAt (mem : Memory) : Nat → List AttrHeader → Prop
  | last {a : Nat} (end_ : Attr.type mem a = atEnd) : AttrsAt mem a []
  | attr {a : Nat} {h : AttrHeader} {attrs : List AttrHeader} (type : Attr.type mem a = h.type)
      (len : Attr.len mem a = h.len) (fits : a + h.len < 2 ^ 32)
      (rest : AttrsAt mem (a + h.len) attrs) : AttrsAt mem a (h :: attrs)

/-- The address of the first attribute of a type. -/
def firstAttrAt (type : Nat) : Nat → List AttrHeader → Option Nat
  | _, [] => none
  | a, h :: attrs => if h.type = type then some a else firstAttrAt type (a + h.len) attrs

/-- The address of the last attribute list, if there is one. -/
def lastListAt : Nat → List AttrHeader → Option Nat → Option Nat
  | _, [], list => list
  | a, h :: attrs, list =>
    lastListAt (a + h.len) attrs (if h.type = atAttrList then some a else list)

/-- A record with some attributes. -/
structure RecordAt (mrec : Mrec) (attrs : List AttrHeader) : Prop where
  inMemory : mrec.addr + mrec.attrsOffset < 2 ^ 32
  attrs : AttrsAt mrec.mem (mrec.addr + mrec.attrsOffset) attrs

/-- The first attribute of a type in a record. -/
def Mrec.find (mrec : Mrec) (attrs : List AttrHeader) (type : Nat) : Option Nat :=
  firstAttrAt type (mrec.addr + mrec.attrsOffset) attrs

/-! ## Entries -/

/-- An entry of an attribute list. It names a record by its number and its sequence number. -/
structure ListEntry where
  type : Nat
  length : Nat
  number : Nat
  sequence : Nat
  type_ne : type ≠ atEnd
  length_ge : 26 ≤ length
  aligned : 8 ∣ length
  number_lt : number < 2 ^ 32
  sequence_pos : 0 < sequence

def ListEntry.mftRef (e : ListEntry) : Nat := e.number + e.sequence * 2 ^ 48

/-- The length of some entries. -/
def entriesLen : List ListEntry → Nat
  | [] => 0
  | e :: es => e.length + entriesLen es

/-- The types and the lengths of entries, from an address on. -/
def HeadersAt (mem : Memory) : Nat → List ListEntry → Prop
  | _, [] => True
  | a, e :: es =>
    (AttrListEntry.type mem a = e.type ∧ AttrListEntry.length mem a = e.length) ∧
      HeadersAt mem (a + e.length) es

/-- The references in entries, from an address on. -/
def RefsAt (mem : Memory) : Nat → List ListEntry → Prop
  | _, [] => True
  | a, e :: es => AttrListEntry.mftRef mem a = e.mftRef ∧ RefsAt mem (a + e.length) es

/-- Where the first entry of a type begins. -/
def entryOffset (type : Nat) : List ListEntry → Option Nat
  | [] => none
  | e :: es => if e.type = type then some 0 else (entryOffset type es).map (e.length + ·)

variable {mem mem' : Memory} {type a b : Nat} {attrs : List AttrHeader} {es fs : List ListEntry}
  {list : Option Nat}

/-! ## The loop over the attributes -/

/-- An attribute of another type is passed, and an attribute list noted. -/
theorem attrStep_of_ne (hend : Attr.type mem a ≠ atEnd)
    (hne : Attr.type mem a ≠ type ∨ Attr.type mem a = atAttrList) :
    attrStep type mem (a, list) = .next (u32 (a + Attr.len mem a),
      if Attr.type mem a = atAttrList then some a else list) := by
  rw [attrStep]
  dsimp only
  rw [if_neg hend]
  split_ifs with hlist heq
  · rfl
  · exact absurd heq (hne.resolve_right hlist)
  · rfl

/-- The loop stops at the first attribute of the type. -/
theorem attrLoop_found (h : AttrsAt mem a attrs) (htype : type ≠ atAttrList) {p : Nat}
    (hp : firstAttrAt type a attrs = some p) (list : Option Nat) :
    ∃ n list', runLoop (attrStep type mem) n (a, list) = some (p, list') ∧
      Attr.type mem p ≠ atEnd := by
  induction h generalizing list with
  | last => cases hp
  | @attr a h attrs type' len fits rest ih =>
    have hend : Attr.type mem a ≠ atEnd := by
      rw [type']
      exact h.type_ne
    rw [firstAttrAt] at hp
    split_ifs at hp with heq
    · obtain rfl := Option.some.inj hp
      refine ⟨1, list, runLoop_stop ?_, hend⟩
      rw [attrStep]
      dsimp only
      rw [type', heq, if_neg htype, if_pos rfl, ite_self]
    · obtain ⟨n, list', hrun, hne⟩ := ih hp (if h.type = atAttrList then some a else list)
      refine ⟨n + 1, list', runLoop_next ?_ hrun, hne⟩
      rw [attrStep_of_ne hend (Or.inl (by rw [type']; exact heq)), type', len, u32_of_lt fits]

/-- The loop comes to the end when there is no attribute of the type, and for the type of lists. -/
theorem attrLoop_end (h : AttrsAt mem a attrs)
    (hnone : type = atAttrList ∨ firstAttrAt type a attrs = none) (list : Option Nat) :
    ∃ n p, runLoop (attrStep type mem) n (a, list) = some (p, lastListAt a attrs list) ∧
      Attr.type mem p = atEnd := by
  induction h generalizing list with
  | @last a end_ =>
    refine ⟨1, a, runLoop_stop ?_, end_⟩
    rw [attrStep]
    exact if_pos end_
  | @attr a h attrs type' len fits rest ih =>
    have hend : Attr.type mem a ≠ atEnd := by
      rw [type']
      exact h.type_ne
    have hcases : (Attr.type mem a ≠ type ∨ Attr.type mem a = atAttrList) ∧
        (type = atAttrList ∨ firstAttrAt type (a + h.len) attrs = none) := by
      rcases hnone with hlist | hnone
      · refine ⟨?_, Or.inl hlist⟩
        rw [hlist]
        exact ne_or_eq _ _
      · rw [firstAttrAt] at hnone
        split_ifs at hnone with heq
        exact ⟨Or.inl (by rw [type']; exact heq), Or.inr hnone⟩
    obtain ⟨n, p, hrun, hp⟩ := ih hcases.2 (if h.type = atAttrList then some a else list)
    refine ⟨n + 1, p, runLoop_next ?_ hrun, hp⟩
    rw [attrStep_of_ne hend hcases.1, type', len, u32_of_lt fits]

/-- Without an attribute list there is no last one. -/
theorem lastListAt_none (h : firstAttrAt atAttrList a attrs = none) (list : Option Nat) :
    lastListAt a attrs list = list := by
  induction attrs generalizing a list with
  | nil => rfl
  | cons h' attrs ih =>
    rw [firstAttrAt] at h
    split_ifs at h with heq
    rw [lastListAt, if_neg heq, ih h]

/-- There is no first attribute of a type that no attribute has. -/
theorem firstAttrAt_eq_none_iff :
    firstAttrAt type a attrs = none ↔ ∀ h ∈ attrs, h.type ≠ type := by
  induction attrs generalizing a with
  | nil => exact iff_of_true rfl fun _ h => absurd h List.not_mem_nil
  | cons h attrs ih =>
    rw [firstAttrAt, List.forall_mem_cons]
    split_ifs with heq
    · exact ⟨fun h => (nomatch h), fun h => absurd heq h.1⟩
    · rw [ih, and_iff_right heq]

/-- The last attribute list is the first one when there is no other. -/
theorem lastListAt_eq (h : (attrs.filter fun h => h.type = atAttrList).length ≤ 1) :
    lastListAt a attrs none = firstAttrAt atAttrList a attrs := by
  induction attrs generalizing a with
  | nil => rfl
  | cons h' attrs ih =>
    rw [lastListAt, firstAttrAt]
    by_cases heq : h'.type = atAttrList
    · rw [List.filter_cons_of_pos (by simpa using heq), List.length_cons] at h
      have hnil := List.length_eq_zero_iff.mp (Nat.le_zero.mp (Nat.le_of_succ_le_succ h))
      rw [if_pos heq, if_pos heq]
      refine lastListAt_none (firstAttrAt_eq_none_iff.mpr fun h'' hmem htype => ?_) _
      exact List.filter_eq_nil_iff.mp hnil h'' hmem (decide_eq_true htype)
    · rw [List.filter_cons_of_neg (by simpa using heq)] at h
      rw [if_neg heq, if_neg heq, ih h]

/-! ## The loop over the entries -/

/-- The lengths of entries add up. -/
theorem entriesLen_append (es fs : List ListEntry) :
    entriesLen (es ++ fs) = entriesLen es + entriesLen fs := by
  induction es with
  | nil => exact (Nat.zero_add _).symm
  | cons e es ih => rw [List.cons_append, entriesLen, ih, entriesLen, Nat.add_assoc]

/-- Entries are a multiple of eight bytes. -/
theorem entriesLen_dvd (es : List ListEntry) : 8 ∣ entriesLen es := by
  induction es with
  | nil => exact Nat.dvd_zero 8
  | cons e es ih => exact Nat.dvd_add e.aligned ih

/-- The last entry has a length. -/
theorem entriesLen_dropLast (h : es ≠ []) : entriesLen es.dropLast + 26 ≤ entriesLen es := by
  have hsplit := entriesLen_append es.dropLast [es.getLast h]
  rw [List.dropLast_append_getLast, entriesLen, entriesLen] at hsplit
  have hlen := (es.getLast h).length_ge
  omega

/-- The reference of an entry has a sequence number. -/
theorem ListEntry.mftRef_ge (e : ListEntry) : 2 ^ 48 ≤ e.mftRef :=
  (Nat.le_mul_of_pos_left _ e.sequence_pos).trans (Nat.le_add_left _ _)

/-- The record number in a reference. -/
theorem ListEntry.u32_mftRef (e : ListEntry) : u32 e.mftRef = e.number := by
  have hnumber := e.number_lt
  rw [ListEntry.mftRef, u32]
  omega

/-- The headers of both lists lie one behind the other. -/
theorem headersAt_append :
    HeadersAt mem a (es ++ fs) ↔ HeadersAt mem a es ∧ HeadersAt mem (a + entriesLen es) fs := by
  induction es generalizing a with
  | nil => exact (and_iff_right trivial).symm
  | cons e es ih =>
    rw [List.cons_append, HeadersAt, ih, HeadersAt, entriesLen, Nat.add_assoc]
    exact and_assoc.symm

/-- The references of both lists lie one behind the other. -/
theorem refsAt_append :
    RefsAt mem a (es ++ fs) ↔ RefsAt mem a es ∧ RefsAt mem (a + entriesLen es) fs := by
  induction es generalizing a with
  | nil => exact (and_iff_right trivial).symm
  | cons e es ih =>
    rw [List.cons_append, RefsAt, ih, RefsAt, entriesLen, Nat.add_assoc]
    exact and_assoc.symm

/-- The first entry of a type. -/
theorem entryOffset_some {o : Nat} (h : entryOffset type es = some o) :
    ∃ before e after, es = before ++ e :: after ∧ e.type = type ∧
      (∀ x ∈ before, x.type ≠ type) ∧ o = entriesLen before := by
  induction es generalizing o with
  | nil => cases h
  | cons e es ih =>
    rw [entryOffset] at h
    split_ifs at h with heq
    · obtain rfl := Option.some.inj h
      exact ⟨[], e, es, rfl, heq, fun x hx => absurd hx List.not_mem_nil, rfl⟩
    · obtain ⟨o', ho', rfl⟩ := Option.map_eq_some_iff.mp h
      obtain ⟨before, e', after, rfl, htype, hbefore, rfl⟩ := ih ho'
      exact ⟨e :: before, e', after, rfl, htype, List.forall_mem_cons.mpr ⟨heq, hbefore⟩, rfl⟩

/-- There is no entry of a type that none of them has. -/
theorem entryOffset_eq_none_iff : entryOffset type es = none ↔ ∀ e ∈ es, e.type ≠ type := by
  induction es with
  | nil => exact iff_of_true rfl fun _ h => absurd h List.not_mem_nil
  | cons e es ih =>
    rw [entryOffset, List.forall_mem_cons]
    split_ifs with heq
    · exact ⟨fun h => (nomatch h), fun h => absurd heq h.1⟩
    · rw [Option.map_eq_none_iff, ih, and_iff_right heq]

/-- An entry of another type is passed. -/
theorem listStep_next (limit : Nat) {e : ListEntry} (hlimit : a < limit)
    (htype : AttrListEntry.type mem a = e.type) (hlen : AttrListEntry.length mem a = e.length)
    (hne : e.type ≠ type) (hfits : a + e.length < 2 ^ 32) :
    listStep type limit mem a = .next (a + e.length) := by
  rw [listStep, if_pos hlimit, htype, if_neg hne, hlen, u32_of_lt hfits]

/-- The loop goes over entries of other types. -/
theorem listStep_reaches {limit : Nat} (h : HeadersAt mem a es) (hne : ∀ e ∈ es, e.type ≠ type)
    (hlimit : a + entriesLen es ≤ limit) (hmem : limit < 2 ^ 32) :
    Relation.ReflTransGen (Goes fun _ => listStep type limit mem) a (a + entriesLen es) := by
  induction es generalizing a with
  | nil => exact .refl
  | cons e es ih =>
    obtain ⟨⟨htype, hlen⟩, hrest⟩ := h
    have hne' := List.forall_mem_cons.mp hne
    have hpos := e.length_ge
    rw [entriesLen, ← Nat.add_assoc] at hlimit ⊢
    have hstep := listStep_next limit (by omega) htype hlen hne'.1 (by omega)
    exact .head ⟨0, hstep⟩ (ih hrest hne'.2 hlimit)

/-- The loop finds the entry behind those of other types. -/
theorem listLoop_found (limit : Nat) {e : ListEntry}
    (h : HeadersAt mem a (es ++ [e])) (hne : ∀ x ∈ es, x.type ≠ type) (htype : e.type = type)
    (hlimit : a + entriesLen es < limit) (hmem : limit < 2 ^ 32) :
    ∃ n, runLoop (listStep type limit mem) n a =
      some (some (AttrListEntry.mftRef mem (a + entriesLen es))) := by
  obtain ⟨hbefore, ⟨hfound, -⟩, -⟩ := headersAt_append.mp h
  refine (steady_const _).ends_of_reaches (listStep_reaches hbefore hne hlimit.le hmem)
    ⟨1, runLoop_stop ?_⟩
  rw [listStep, if_pos hlimit, if_pos (hfound.trans htype)]

/-- The loop ends without an entry when none of the type begins in front of the limit. -/
theorem listLoop_none (limit : Nat) (h : HeadersAt mem a es)
    (hmiss : ∀ o, entryOffset type es = some o → limit ≤ a + o)
    (hend : limit ≤ a + entriesLen es) (hmem : a + entriesLen es < 2 ^ 32) :
    ∃ n, runLoop (listStep type limit mem) n a = some none := by
  induction es generalizing a with
  | nil =>
    refine ⟨1, runLoop_stop ?_⟩
    exact if_neg (Nat.not_lt.mpr hend)
  | cons e es ih =>
    obtain ⟨⟨htype, hlen⟩, hrest⟩ := h
    rw [entriesLen, ← Nat.add_assoc] at hend hmem
    by_cases hlimit : a < limit
    · have hne : e.type ≠ type := by
        intro heq
        exact absurd (hmiss 0 (if_pos heq)) (Nat.not_le.mpr hlimit)
      obtain ⟨n, hrun⟩ := ih hrest (fun o ho => by
        rw [Nat.add_assoc]
        refine hmiss _ ?_
        rw [entryOffset, if_neg hne, ho, Option.map_some]) hend hmem
      exact ⟨n + 1, runLoop_next (listStep_next limit hlimit htype hlen hne (by omega)) hrun⟩
    · refine ⟨1, runLoop_stop ?_⟩
      rw [listStep, if_neg hlimit]

/-! ## Entries in another place -/

/-- The headers of entries do not change with the memory behind the last one of them. -/
theorem headersAt_congr {k : Nat} (h : HeadersAt mem b es)
    (hsame : ∀ i < k, mem' (a + i) = mem (b + i))
    (hlast : es ≠ [] → entriesLen es.dropLast + 6 ≤ k) : HeadersAt mem' a es := by
  induction es generalizing a b k with
  | nil => trivial
  | cons e es ih =>
    obtain ⟨⟨htype, hlen⟩, hrest⟩ := h
    have hroom := hlast (List.cons_ne_nil e es)
    refine ⟨⟨?_, ?_⟩, @ih (a + e.length) (b + e.length) (k - e.length) hrest ?_ fun hne => ?_⟩
    · rw [← htype]
      exact memLe_congr fun i hi => hsame i (by omega)
    · rw [← hlen]
      refine memLe_congr fun i hi => ?_
      rw [Nat.add_assoc, Nat.add_assoc]
      exact hsame _ (by omega)
    · intro i hi
      rw [Nat.add_assoc, Nat.add_assoc]
      exact hsame _ (by omega)
    · rw [List.dropLast_cons_of_ne_nil hne, entriesLen] at hroom
      omega

end Liigboot.Fs.Ntfs
