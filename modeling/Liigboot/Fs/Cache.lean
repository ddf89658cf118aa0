import Liigboot.Lib.Ring
import Liigboot.Lib.Lru
import Mathlib.Algebra.Group.Nat.Defs

/-!
# The block cache

`cache_init`, `cache_lock_block`, `_get_cache_block` and `get_cache`. The descriptors are
an array behind the buffers; those that are not locked form a ring with the head, in the
order of their last use. A block is what `getoneblk` reads for it.
-/

namespace Liigboot.Fs.Cache

/-- What a link of a descriptor may point to. -/
inductive Ptr
  | null
  | head
  | entry (i : Nat)
  deriving DecidableEq, Repr

/-- The label of a descriptor without a block. -/
def noBlock : UInt64 := 0xffffffffffffffff

/-- The constants of `struct device`, and the sector size of its disk. -/
structure Device where
  cacheData : Nat
  cacheBlockSize : Nat
  cacheEntries : Nat
  sectorSize : Nat
  deriving DecidableEq, Repr

/-- The fields of the descriptors, and memory. -/
structure State where
  block : Ptr → UInt64
  prev : Ptr → Ptr
  next : Ptr → Ptr
  data : Ptr → Nat
  mem : Nat → UInt8

/-- Byte `k` of each sector. -/
abbrev Disk := UInt64 → Nat → UInt8

namespace State

variable (s : State)

def setNext (p q : Ptr) : State := { s with next := Function.update s.next p q }

def setPrev (p q : Ptr) : State := { s with prev := Function.update s.prev p q }

def setBlock (p : Ptr) (b : UInt64) : State := { s with block := Function.update s.block p b }

def setData (p : Ptr) (a : Nat) : State := { s with data := Function.update s.data p a }

end State

/-! ## The source -/

def structSize : Nat := 20

/-- The loop of `cache_init`: `count` descriptors from `i` on, with the buffers from `data` on. -/
def initLoop (blockSize : Nat) : Nat → Nat → Ptr → Nat → State → State
  | 0, _, _, _, s => s
  | count + 1, i, prev, data, s =>
    let s := (s.setData (.entry i) data).setBlock (.entry i) noBlock
    let s := (s.setPrev (.entry i) prev).setNext prev (.entry i)
    initLoop blockSize count (i + 1) (.entry i) (data + blockSize) s

/-- The block size and the number of entries are 16-bit fields. There is no result when the
cache is too small. -/
def cacheInit (cacheData cacheSize sectorSize blockSizeShift : Nat) (s : State) :
    Option (Device × State) :=
  let blockSize := 2 ^ blockSizeShift % 2 ^ 16
  if cacheSize < blockSize + 2 * structSize then none
  else
    let entries := (cacheSize - structSize) / (blockSize + structSize) % 2 ^ 16
    let last := if entries = 0 then .head else .entry (entries - 1)
    let s := (s.setPrev .head last).setNext last .head
    let s := (s.setBlock .head noBlock).setData .head 0
    some (⟨cacheData, blockSize, entries, sectorSize⟩,
      initLoop blockSize entries 0 .head cacheData s)

/-- `cache_lock_block`. -/
def cacheLockBlock (s : State) (cs : Ptr) : State :=
  let s := s.setNext (s.prev cs) (s.next cs)
  let s := s.setPrev (s.next cs) (s.prev cs)
  (s.setPrev cs .null).setNext cs .null

/-- Move to the end of the LRU chain. -/
def moveToEnd (s : State) (cs : Ptr) : State :=
  let s := s.setNext (s.prev cs) (s.next cs)
  let s := s.setPrev (s.next cs) (s.prev cs)
  let s := s.setPrev cs (s.prev .head)
  let s := s.setNext (s.prev .head) cs
  (s.setNext cs .head).setPrev .head cs

/-- `_get_cache_block`: the descriptor of the block, or else the one that was used longest ago. -/
def getCacheBlock (dev : Device) (s : State) (block : UInt64) : Ptr × State :=
  let cs := match (List.range dev.cacheEntries).find? fun i => s.block (.entry i) = block with
    | some i => .entry i
    | none => s.next .head
  (cs, if s.next cs ≠ .null then moveToEnd s cs else s)

def Device.secPerBlock (dev : Device) : Nat := dev.cacheBlockSize / dev.sectorSize

/-- The number of bytes that `getoneblk` reads. -/
def Device.blockBytes (dev : Device) : Nat := dev.secPerBlock * dev.sectorSize

/-- Byte `k` of a block on the disk. -/
def blockByte (disk : Disk) (dev : Device) (block : UInt64) (k : Nat) : UInt8 :=
  disk (block * UInt64.ofNat dev.secPerBlock + UInt64.ofNat (k / dev.sectorSize))
    (k % dev.sectorSize)

def getoneblk (disk : Disk) (dev : Device) (buf : Nat) (block : UInt64) (mem : Nat → UInt8) :
    Nat → UInt8 := fun a =>
  if buf ≤ a ∧ a < buf + dev.blockBytes then blockByte disk dev block (a - buf) else mem a

/-- `get_cache`: the address of the buffer. -/
def getCache (disk : Disk) (dev : Device) (s : State) (block : UInt64) : Nat × State :=
  let r := getCacheBlock dev s block
  let cs := r.1
  let s := r.2
  if s.block cs ≠ block then
    let s := s.setBlock cs block
    (s.data cs, { s with mem := getoneblk disk dev (s.data cs) block s.mem })
  else (s.data cs, s)

/-! ## The invariant -/

variable {disk : Disk} {dev : Device} {s : State} {lru : List Nat} {b : UInt64} {i j : Nat}

/-- The bytes that `getoneblk` reads for a block are in the buffer of a descriptor. -/
def Filled (disk : Disk) (dev : Device) (s : State) (p : Ptr) (b : UInt64) : Prop :=
  ∀ k < dev.blockBytes, s.mem (s.data p + k) = blockByte disk dev b k

/-- `lru` are the descriptors that are not locked, the one that was used longest ago first. -/
structure Inv (disk : Disk) (dev : Device) (s : State) (lru : List Nat) : Prop where
  ring : Ring s.next s.prev .head (lru.map .entry)
  unlocked : ∀ i, i ∈ lru ↔ i < dev.cacheEntries ∧ s.next (.entry i) ≠ .null
  unique : ∀ i < dev.cacheEntries, ∀ j < dev.cacheEntries,
    s.block (.entry i) = s.block (.entry j) → s.block (.entry i) ≠ noBlock → i = j
  coherent : ∀ i < dev.cacheEntries, s.block (.entry i) ≠ noBlock →
    Filled disk dev s (.entry i) (s.block (.entry i))
  buffers : ∀ i, i < dev.cacheEntries → s.data (.entry i) = dev.cacheData + i * dev.cacheBlockSize

/-- The labels of the descriptors that are not locked. -/
def labels (s : State) (lru : List Nat) : List UInt64 := lru.map fun i => s.block (.entry i)

/-- Different entries are different links. -/
theorem entry_injective : Function.Injective Ptr.entry := fun _ _ h => Ptr.entry.inj h

/-- What is read is not more than a block of the cache. -/
theorem Device.blockBytes_le (dev : Device) : dev.blockBytes ≤ dev.cacheBlockSize :=
  Nat.div_mul_le_self _ _

/-- An entry of the list is not its head. -/
theorem mem_of_entry_mem {xs : List Nat} (h : Ptr.entry i ∈ Ptr.head :: xs.map .entry) :
    i ∈ xs := by
  rcases List.mem_cons.mp h with heq | h
  · cases heq
  · exact (List.mem_map_of_injective entry_injective).mp h

/-- No entry is in the list twice. -/
theorem Inv.nodup (hi : Inv disk dev s lru) : lru.Nodup :=
  (List.nodup_cons.mp hi.ring.nodup).2.of_map

/-- The links after a descriptor has moved to the end. -/
theorem moveToEnd_ring {xs ys : List Ptr} {cs : Ptr}
    (hr : Ring s.next s.prev .head (xs ++ cs :: ys)) :
    Ring (moveToEnd s cs).next (moveToEnd s cs).prev .head (xs ++ ys ++ [cs]) := by
  have hne : cs ≠ s.prev cs := hr.neighbours_ne.1.symm
  have hhead : Ptr.head ≠ cs := fun heq => hr.head_notMem (heq ▸ List.mem_append_right xs
    List.mem_cons_self)
  have hlink := hr.assign_unlink.assign_linkTail hr.notMem_others
  simp only [moveToEnd, State.setNext, State.setPrev, Function.update_of_ne hne,
    Function.update_of_ne hhead]
  exact hlink

/-- The links after a descriptor has been locked. -/
theorem cacheLockBlock_ring {xs ys : List Ptr} {cs : Ptr}
    (hr : Ring s.next s.prev .head (xs ++ cs :: ys)) :
    Ring (cacheLockBlock s cs).next (cacheLockBlock s cs).prev .head (xs ++ ys) := by
  have hne : cs ≠ s.prev cs := hr.neighbours_ne.1.symm
  have hout : ∀ z ∈ Ptr.head :: (xs ++ ys), z ≠ cs := fun z hz heq => hr.notMem_others (heq ▸ hz)
  simp only [cacheLockBlock, State.setNext, State.setPrev, Function.update_of_ne hne]
  exact hr.assign_unlink.congr (fun z hz => Function.update_of_ne (hout z hz) _ _)
    fun z hz => Function.update_of_ne (hout z hz) _ _

/-- The nodes of a ring of descriptors have links that are not null. -/
theorem next_ne_null {prev next : Ptr → Ptr} (hr : Ring next prev .head (lru.map .entry)) {p : Ptr}
    (hp : p ∈ Ptr.head :: lru.map .entry) : next p ≠ .null := by
  intro heq
  have hmem := hr.next_mem hp
  rw [heq] at hmem
  simp at hmem

/-- Links from outside of the ring stay. -/
theorem moveToEnd_next {xs ys : List Ptr} {cs z : Ptr}
    (hr : Ring s.next s.prev .head (xs ++ cs :: ys)) (hz : z ∉ Ptr.head :: (xs ++ cs :: ys)) :
    (moveToEnd s cs).next z = s.next z := by
  have hne : cs ≠ s.prev cs := hr.neighbours_ne.1.symm
  have hhead : Ptr.head ≠ cs := fun heq => hr.head_notMem (heq ▸ List.mem_append_right xs
    List.mem_cons_self)
  have hsub : Ptr.head :: (xs ++ ys) ⊆ Ptr.head :: (xs ++ cs :: ys) :=
    List.cons_subset_cons _ ((List.sublist_cons_self cs ys).append_left xs).subset
  have hlast := hsub hr.assign_unlink.seg.prev_mem
  simp only [moveToEnd, State.setNext, State.setPrev, Function.update_of_ne hne,
    Function.update_of_ne hhead]
  have hout : ∀ w ∈ Ptr.head :: (xs ++ cs :: ys), z ≠ w := fun w hw heq => hz (heq ▸ hw)
  have hcs : cs ∈ Ptr.head :: (xs ++ cs :: ys) :=
    List.mem_cons_of_mem _ (List.mem_append_right xs List.mem_cons_self)
  rw [Function.update_of_ne (hout cs hcs), Function.update_of_ne (hout _ hlast),
    Function.update_of_ne (hout _ hr.neighbours_mem.1)]

/-- Moving a descriptor does not lock or unlock one. -/
theorem Inv.move {xs ys : List Nat} (hi : Inv disk dev s (xs ++ i :: ys)) :
    Inv disk dev (moveToEnd s (.entry i)) (xs ++ ys ++ [i]) := by
  have hr := hi.ring
  rw [List.map_append, List.map_cons] at hr
  have hmoved := moveToEnd_ring hr
  rw [← List.map_append, ← List.map_singleton, ← List.map_append] at hmoved
  have hperm : (xs ++ ys ++ [i]).Perm (xs ++ i :: ys) :=
    (List.perm_append_singleton i (xs ++ ys)).trans List.perm_middle.symm
  refine ⟨hmoved, fun j => ⟨fun hj => ?_, fun hj => ?_⟩, hi.unique, hi.coherent, hi.buffers⟩
  · refine ⟨((hi.unlocked j).mp (hperm.mem_iff.mp hj)).1, next_ne_null hmoved ?_⟩
    exact List.mem_cons_of_mem _ (List.mem_map_of_mem hj)
  · by_contra hout
    have hold : j ∉ xs ++ i :: ys := fun hmem => hout (hperm.mem_iff.mpr hmem)
    have hkeep := moveToEnd_next hr (z := .entry j) fun hmem => by
      rw [← List.map_cons, ← List.map_append] at hmem
      exact hold (mem_of_entry_mem hmem)
    exact hold ((hi.unlocked j).mpr ⟨hj.1, hkeep ▸ hj.2⟩)

/-- A locked descriptor leaves the ring. -/
theorem Inv.lock {xs ys : List Nat} (hi : Inv disk dev s (xs ++ i :: ys)) :
    Inv disk dev (cacheLockBlock s (.entry i)) (xs ++ ys) := by
  have hr := hi.ring
  rw [List.map_append, List.map_cons] at hr
  have hlocked := cacheLockBlock_ring hr
  rw [← List.map_append] at hlocked
  refine ⟨hlocked, fun j => ⟨fun hj => ?_, fun hj => ?_⟩, hi.unique, hi.coherent, hi.buffers⟩
  · have hmem : j ∈ xs ++ i :: ys := ((List.sublist_cons_self i ys).append_left xs).subset hj
    exact ⟨((hi.unlocked j).mp hmem).1, next_ne_null hlocked (List.mem_cons_of_mem _
      (List.mem_map_of_mem hj))⟩
  · have hji : j ≠ i := by
      rintro rfl
      exact hj.2 (Function.update_self _ _ _)
    have hmem : j ∈ xs ++ i :: ys := by
      by_cases heq : Ptr.entry j = s.prev (.entry i)
      · have hprev := hr.neighbours_mem.1
        rw [← heq, ← List.map_cons, ← List.map_append] at hprev
        exact mem_of_entry_mem hprev
      · have hne : Ptr.entry i ≠ s.prev (.entry i) := hr.neighbours_ne.1.symm
        have hnext := hj.2
        simp only [cacheLockBlock, State.setNext, State.setPrev] at hnext
        rw [Function.update_of_ne (fun h => hji (Ptr.entry.inj h)), Function.update_of_ne heq]
          at hnext
        exact (hi.unlocked j).mpr ⟨hj.1, hnext⟩
    rcases List.mem_cons.mp (List.perm_middle.mem_iff.mp hmem) with heq | hmem
    · exact absurd heq hji
    · exact hmem

/-! ## A request -/

/-- The descriptors that `_get_cache_block` chooses: one with the label of the block, or the first
of the chain when there is none. -/
theorem getCacheBlock_inv (hi : Inv disk dev s lru) (hne : lru ≠ []) (b : UInt64) :
    ∃ i s' lru', getCacheBlock dev s b = (.entry i, s') ∧ Inv disk dev s' lru' ∧
      s'.block = s.block ∧ i < dev.cacheEntries ∧
      (s.block (.entry i) ≠ b → ∀ j < dev.cacheEntries, s.block (.entry j) ≠ b) ∧
      (lru' = lru ∧ s.block (.entry i) = b ∧ i ∉ lru ∨
        ∃ xs ys, lru = xs ++ i :: ys ∧ lru' = xs ++ ys ++ [i] ∧
          (s.block (.entry i) ≠ b → xs = [])) := by
  obtain ⟨first, rest, rfl⟩ := List.exists_cons_of_ne_nil hne
  rw [getCacheBlock]
  rcases hfind : (List.range dev.cacheEntries).find? fun i => s.block (.entry i) = b with _ | i
  · have hnone : ∀ j < dev.cacheEntries, s.block (.entry j) ≠ b := by
      intro j hj
      simpa using List.find?_eq_none.mp hfind j (List.mem_range.mpr hj)
    have hfirst : s.next .head = .entry first := hi.ring.seg.1
    have hmem := (hi.unlocked first).mp List.mem_cons_self
    have hmove := @Inv.move _ _ _ _ [] _ hi
    refine ⟨first, moveToEnd s (.entry first), rest ++ [first], ?_, hmove, rfl, hmem.1,
      fun _ => hnone, Or.inr ⟨[], rest, rfl, rfl, fun _ => rfl⟩⟩
    dsimp only
    rw [hfirst, if_pos hmem.2]
  · have hlt := List.mem_range.mp (List.mem_of_find?_eq_some hfind)
    have hb : s.block (.entry i) = b := by simpa using List.find?_some hfind
    dsimp only
    by_cases hlocked : s.next (.entry i) = .null
    · have hout : i ∉ first :: rest := fun hmem => ((hi.unlocked i).mp hmem).2 hlocked
      refine ⟨i, s, first :: rest, ?_, hi, rfl, hlt, fun h => absurd hb h,
        Or.inl ⟨rfl, hb, hout⟩⟩
      rw [if_neg (not_not.mpr hlocked)]
    · obtain ⟨xs, ys, hsplit⟩ := List.append_of_mem ((hi.unlocked i).mpr ⟨hlt, hlocked⟩)
      rw [hsplit] at hi ⊢
      refine ⟨i, moveToEnd s (.entry i), xs ++ ys ++ [i], ?_, hi.move, rfl, hlt,
        fun h => absurd hb h, Or.inr ⟨xs, ys, rfl, rfl, fun h => absurd hb h⟩⟩
      rw [if_pos hlocked]

/-- A descriptor whose block is read anew. -/
theorem Inv.load (hi : Inv disk dev s lru) (hlt : i < dev.cacheEntries)
    (hmiss : ∀ j < dev.cacheEntries, s.block (.entry j) ≠ b) :
    Inv disk dev { s.setBlock (.entry i) b with
      mem := getoneblk disk dev (s.data (.entry i)) b s.mem } lru := by
  have hself : (s.setBlock (.entry i) b).block (.entry i) = b := Function.update_self _ _ _
  have hother : ∀ j, j ≠ i → (s.setBlock (.entry i) b).block (.entry j) = s.block (.entry j) :=
    fun j hj => Function.update_of_ne (fun h => hj (Ptr.entry.inj h)) _ _
  refine ⟨hi.ring, hi.unlocked, fun j hj k hk heq hne => ?_, fun j hj hne => ?_, hi.buffers⟩
  · dsimp only at heq hne
    rcases eq_or_ne j i with rfl | hji
    · rcases eq_or_ne k j with rfl | hkj
      · rfl
      · rw [hself, hother k hkj] at heq
        exact absurd heq.symm (hmiss k hk)
    · rw [hother j hji] at heq hne
      rcases eq_or_ne k i with rfl | hki
      · rw [hself] at heq
        exact absurd heq (hmiss j hj)
      · rw [hother k hki] at heq
        exact hi.unique j hj k hk heq hne
  · dsimp only at hne ⊢
    intro k hk
    have hle := dev.blockBytes_le
    rcases eq_or_ne j i with rfl | hji
    · rw [hself]
      change getoneblk disk dev _ b s.mem (s.data (.entry j) + k) = _
      rw [getoneblk, if_pos ⟨Nat.le_add_right _ _, Nat.add_lt_add_left hk _⟩,
        Nat.add_sub_cancel_left]
    · rw [hother j hji] at hne ⊢
      change getoneblk disk dev _ b s.mem (s.data (.entry j) + k) = _
      have hout : ¬(s.data (.entry i) ≤ s.data (.entry j) + k ∧
          s.data (.entry j) + k < s.data (.entry i) + dev.blockBytes) := by
        rw [hi.buffers i hlt, hi.buffers j hj]
        -- The buffers lie one after the other.
        rcases Nat.lt_or_gt_of_ne hji with hlt | hgt
        · have hmul := Nat.mul_le_mul_right dev.cacheBlockSize hlt
          rw [Nat.succ_mul] at hmul
          omega
        · have hmul := Nat.mul_le_mul_right dev.cacheBlockSize hgt
          rw [Nat.succ_mul] at hmul
          omega
      rw [getoneblk, if_neg hout]
      exact hi.coherent j hj hne k hk

/-- The labels without that of one descriptor. -/
private theorem labels_filter {xs ys : List Nat} (hi : Inv disk dev s (xs ++ i :: ys))
    (hb : s.block (.entry i) = b) (hne : b ≠ noBlock) :
    (labels s (xs ++ i :: ys)).filter (· ≠ b) = labels s (xs ++ ys) := by
  have hlt : ∀ j ∈ xs ++ i :: ys, j < dev.cacheEntries := fun j hj => ((hi.unlocked j).mp hj).1
  have hi_mem : i ∈ xs ++ i :: ys := List.mem_append_right xs List.mem_cons_self
  have hout : i ∉ xs ++ ys := (List.nodup_middle.mp hi.nodup).notMem
  have hkeep : ∀ zs : List Nat, zs ⊆ xs ++ ys → (labels s zs).filter (· ≠ b) = labels s zs := by
    intro zs hzs
    refine List.filter_eq_self.mpr fun c hc => decide_eq_true fun heq => ?_
    obtain ⟨j, hj, rfl⟩ := List.mem_map.mp hc
    have hmem := ((List.sublist_cons_self i ys).append_left xs).subset (hzs hj)
    have hji := hi.unique j (hlt j hmem) i (hlt i hi_mem) (heq.trans hb.symm) (heq ▸ hne)
    exact hout (hji ▸ hzs hj)
  rw [labels, List.map_append, List.map_cons, List.filter_append, List.filter_cons,
    if_neg (by simp [hb]), labels, List.map_append]
  congr 1
  · exact hkeep xs (List.subset_append_left xs ys)
  · exact hkeep ys (List.subset_append_right xs ys)

/-- What a request does. -/
theorem getCache_inv (hi : Inv disk dev s lru) (hne : lru ≠ []) (hb : b ≠ noBlock) :
    ∃ i s' lru', getCache disk dev s b = (s'.data (.entry i), s') ∧ i < dev.cacheEntries ∧
      s'.block (.entry i) = b ∧ Inv disk dev s' lru' ∧ lru'.Perm lru ∧
      ((∀ j < dev.cacheEntries, j ∈ lru) → labels s' lru' = touch b (labels s lru)) := by
  obtain ⟨i, s', lru', hget, hi', hblock, hlt, hmiss, hlru⟩ := getCacheBlock_inv hi hne b
  have hperm : lru'.Perm lru := by
    rcases hlru with ⟨rfl, -⟩ | ⟨xs, ys, rfl, rfl, -⟩
    · exact List.Perm.refl lru'
    · exact (List.perm_append_singleton i (xs ++ ys)).trans List.perm_middle.symm
  by_cases hhit : s.block (.entry i) = b
  · refine ⟨i, s', lru', ?_, hlt, (congrFun hblock _).trans hhit, hi', hperm, fun hall => ?_⟩
    · rw [getCache, hget]
      dsimp only
      rw [hblock, if_neg (not_not.mpr hhit)]
    · rcases hlru with ⟨-, -, hout⟩ | ⟨xs, ys, rfl, rfl, -⟩
      · exact absurd (hall i hlt) hout
      · have hmem : b ∈ labels s (xs ++ i :: ys) :=
          hhit ▸ List.mem_map_of_mem (List.mem_append_right xs List.mem_cons_self)
        rw [touch, if_pos hmem, labels_filter hi hhit hb, labels, labels, hblock,
          List.map_append, List.map_singleton, hhit]
  · have hmiss := hmiss hhit
    rw [← hblock] at hmiss
    refine ⟨i, _, lru', ?_, hlt, ?_, hi'.load hlt hmiss, hperm, fun hall => ?_⟩
    · rw [getCache, hget]
      dsimp only
      rw [hblock, if_pos hhit]
      rfl
    · exact Function.update_self _ _ _
    · rcases hlru with ⟨-, heq, -⟩ | ⟨xs, ys, rfl, rfl, hfirst⟩
      · exact absurd heq hhit
      · obtain rfl := hfirst hhit
        have hout : i ∉ ys := (List.nodup_cons.mp hi.nodup).1
        have hnot : b ∉ labels s ([] ++ i :: ys) := by
          intro hmem
          obtain ⟨j, hj, hjb⟩ := List.mem_map.mp hmem
          rw [hblock] at hmiss
          exact hmiss j ((hi.unlocked j).mp hj).1 hjb
        rw [touch, if_neg hnot, labels, List.map_append, List.map_singleton]
        congr 1
        · refine List.map_congr_left fun j hj => ?_
          have hji : j ≠ i := fun heq => hout (heq ▸ hj)
          exact (Function.update_of_ne (fun h => hji (Ptr.entry.inj h)) _ _).trans
            (congrFun hblock _)
        · exact congrArg (fun c => [c]) (Function.update_self _ _ _)

/-! ## A run -/

private theorem getLastD_mem (p : Ptr) (xs : List Ptr) : xs.getLastD p ∈ p :: xs := by
  induction xs generalizing p with
  | nil => exact List.mem_singleton_self p
  | cons x xs ih =>
    rw [List.getLastD_cons]
    exact List.mem_cons_of_mem p (ih x)

/-- What the loop of `cache_init` leaves: the descriptors are linked behind `p`. -/
theorem initLoop_spec {blockSize count : Nat} {p : Ptr} {data : Nat}
    (hp : p ∉ (List.range' i count).map Ptr.entry)
    (hlast : s.next (((List.range' i count).map .entry).getLastD p) = .head)
    (hback : s.prev .head = ((List.range' i count).map .entry).getLastD p) :
    Seg (initLoop blockSize count i p data s).next (initLoop blockSize count i p data s).prev p
        ((List.range' i count).map .entry) .head ∧
      (∀ j < count, (initLoop blockSize count i p data s).block (.entry (i + j)) = noBlock ∧
        (initLoop blockSize count i p data s).data (.entry (i + j)) = data + j * blockSize) ∧
      (∀ z ∉ p :: (List.range' i count).map Ptr.entry,
        (initLoop blockSize count i p data s).next z = s.next z) ∧
      ∀ z ∉ (List.range' i count).map Ptr.entry,
        (initLoop blockSize count i p data s).prev z = s.prev z ∧
        (initLoop blockSize count i p data s).block z = s.block z ∧
        (initLoop blockSize count i p data s).data z = s.data z := by
  induction count generalizing i p data s with
  | zero => exact ⟨⟨hlast, hback⟩, fun j hj => absurd hj (Nat.not_lt_zero j), fun _ _ => rfl,
      fun _ _ => ⟨rfl, rfl, rfl⟩⟩
  | succ count ih =>
    rw [List.range'_succ, List.map_cons] at hp hlast hback ⊢
    rw [List.getLastD_cons] at hlast hback
    rw [List.mem_cons, not_or] at hp
    have hnext : Ptr.entry i ∉ (List.range' (i + 1) count).map Ptr.entry := by
      intro hmem
      have hrange := (List.mem_map_of_injective entry_injective).mp hmem
      have hle := (List.mem_range'_1.mp hrange).1
      omega
    have hlastne : ((List.range' (i + 1) count).map Ptr.entry).getLastD (.entry i) ≠ p := by
      intro heq
      have hmem := getLastD_mem (.entry i) ((List.range' (i + 1) count).map .entry)
      rw [heq] at hmem
      rcases List.mem_cons.mp hmem with heq | hmem
      · exact hp.1 heq
      · exact hp.2 hmem
    rw [initLoop]
    generalize hs : ((((s.setData (.entry i) data).setBlock (.entry i) noBlock).setPrev (.entry i)
      p).setNext p (.entry i)) = s₁
    have hsnext : s₁.next = Function.update s.next p (.entry i) := hs ▸ rfl
    have hsprev : s₁.prev = Function.update s.prev (.entry i) p := hs ▸ rfl
    have hsblock : s₁.block = Function.update s.block (.entry i) noBlock := hs ▸ rfl
    have hsdata : s₁.data = Function.update s.data (.entry i) data := hs ▸ rfl
    obtain ⟨hseg, hentries, hframe, hkeep⟩ := @ih s₁ (i + 1) (.entry i) (data + blockSize) hnext
      (by rw [hsnext, Function.update_of_ne hlastne, hlast])
      (by rw [hsprev, Function.update_of_ne (by simp), hback])
    have hpout : p ∉ Ptr.entry i :: (List.range' (i + 1) count).map Ptr.entry := by
      rw [List.mem_cons, not_or]
      exact hp
    obtain ⟨hprevi, hblocki, hdatai⟩ := hkeep _ hnext
    refine ⟨⟨?_, ?_, hseg⟩, fun j hj => ?_, fun z hz => ?_, fun z hz => ?_⟩
    · rw [hframe p hpout, hsnext, Function.update_self]
    · rw [hprevi, hsprev, Function.update_self]
    · rcases j with _ | j
      · simp only [Nat.add_zero, Nat.zero_mul, hblocki, hdatai, hsblock, hsdata,
          Function.update_self, true_and]
      · obtain ⟨hb, hd⟩ := hentries j (by omega)
        rw [show i + (j + 1) = i + 1 + j by omega, hb, hd, Nat.succ_mul]
        exact ⟨rfl, by omega⟩
    · rw [List.mem_cons, not_or] at hz
      rw [hframe z hz.2, hsnext, Function.update_of_ne hz.1]
    · obtain ⟨h1, h2, h3⟩ := hkeep z fun hmem => hz (List.mem_cons_of_mem _ hmem)
      have hne : z ≠ .entry i := fun heq => hz (heq ▸ List.mem_cons_self)
      rw [h1, h2, h3, hsprev, hsblock, hsdata, Function.update_of_ne hne,
        Function.update_of_ne hne, Function.update_of_ne hne]
      exact ⟨rfl, rfl, rfl⟩

/-- A new cache: no descriptor has a block or is locked. -/
theorem cacheInit_inv {cacheData cacheSize sectorSize blockSizeShift : Nat} {s₀ : State}
    (disk : Disk) (h : cacheInit cacheData cacheSize sectorSize blockSizeShift s₀ = some (dev, s)) :
    Inv disk dev s (List.range dev.cacheEntries) ∧
      ∀ j < dev.cacheEntries, s.block (.entry j) = noBlock := by
  rw [cacheInit] at h
  split_ifs at h with hsmall
  simp only [Option.some.injEq, Prod.mk.injEq] at h
  obtain ⟨hdev, hs⟩ := h
  have hentries : (cacheSize - structSize) / (2 ^ blockSizeShift % 2 ^ 16 + structSize) % 2 ^ 16 =
      dev.cacheEntries := hdev ▸ rfl
  have hsize : 2 ^ blockSizeShift % 2 ^ 16 = dev.cacheBlockSize := hdev ▸ rfl
  have hdata : cacheData = dev.cacheData := hdev ▸ rfl
  rw [hentries, hsize, hdata] at hs
  have hlast : (if dev.cacheEntries = 0 then Ptr.head else .entry (dev.cacheEntries - 1)) =
      ((List.range' 0 dev.cacheEntries).map Ptr.entry).getLastD .head := by
    rcases dev.cacheEntries with _ | n
    · rfl
    · rw [List.range'_1_concat, List.map_append, List.map_singleton, List.getLastD_concat,
        if_neg (Nat.succ_ne_zero n)]
      simp
  have hhead : Ptr.head ∉ (List.range' 0 dev.cacheEntries).map Ptr.entry := by simp
  rw [hlast] at hs
  generalize hs₁ : State.setData _ _ _ = s₁ at hs
  have hnext : s₁.next (((List.range' 0 dev.cacheEntries).map Ptr.entry).getLastD .head) =
      .head := by
    simp only [← hs₁, State.setData, State.setBlock, State.setNext, Function.update_self]
  have hprev : s₁.prev .head =
      ((List.range' 0 dev.cacheEntries).map Ptr.entry).getLastD .head := by
    simp only [← hs₁, State.setData, State.setBlock, State.setNext, State.setPrev,
      Function.update_self]
  obtain ⟨hseg, hnew, -, -⟩ := @initLoop_spec s₁ 0 dev.cacheBlockSize dev.cacheEntries .head
    dev.cacheData hhead hnext hprev
  rw [hs, ← List.range_eq_range'] at hseg
  rw [hs] at hnew
  simp only [Nat.zero_add] at hnew
  have hring : Ring s.next s.prev .head ((List.range dev.cacheEntries).map .entry) := by
    refine ⟨hseg, List.nodup_cons.mpr ⟨by simp, ?_⟩⟩
    exact List.nodup_range.map entry_injective
  have hempty : ∀ j < dev.cacheEntries, s.block (.entry j) = noBlock := fun j hj => (hnew j hj).1
  refine ⟨⟨hring, fun j => ⟨fun hj => ⟨List.mem_range.mp hj, ?_⟩, fun hj =>
    List.mem_range.mpr hj.1⟩, fun j hj k hk heq hne => ?_, fun j hj hne => ?_,
    fun j hj => (hnew j hj).2⟩, hempty⟩
  · exact next_ne_null hring (List.mem_cons_of_mem _ (List.mem_map_of_mem hj))
  · exact absurd (hempty j hj) hne
  · exact absurd (hempty j hj) hne

theorem range_ne_nil {n : Nat} (hn : 1 ≤ n) : List.range n ≠ [] := by
  intro heq
  have hlen := congrArg List.length heq
  rw [List.length_range, List.length_nil] at hlen
  omega

/-- The labels of descriptors without blocks. -/
theorem labels_of_empty (hempty : ∀ j < dev.cacheEntries, s.block (.entry j) = noBlock) :
    labels s (List.range dev.cacheEntries) =
      (resident noBlock dev.cacheEntries []).reverse := by
  rw [resident, recent_nil, List.nil_append, List.take_replicate, Nat.min_self,
    List.reverse_replicate]
  refine List.eq_replicate_iff.mpr ⟨?_, fun b hb => ?_⟩
  · rw [labels, List.length_map, List.length_range]
  · obtain ⟨j, hj, rfl⟩ := List.mem_map.mp hb
    exact hempty j (List.mem_range.mp hj)

/-! ## What the cache is for -/

/-- Byte `a` of a disk with sectors of this size. -/
def diskByte (disk : Disk) (sectorSize a : Nat) : UInt8 :=
  disk (UInt64.ofNat (a / sectorSize)) (a % sectorSize)

/-- A block of the volume lies in memory. Its size is that of the volume, not the one that the
cache has kept. -/
def BlockAt (disk : Disk) (sectorSize blockSizeShift : Nat) (mem : Nat → UInt8) (a : Nat)
    (b : UInt64) : Prop :=
  ∀ k < 2 ^ blockSizeShift, mem (a + k) = diskByte disk sectorSize (b.toNat * 2 ^ blockSizeShift + k)

/-- The buffer of a descriptor holds a block. -/
def Holds (disk : Disk) (dev : Device) (blockSizeShift : Nat) (s : State) (p : Ptr)
    (b : UInt64) : Prop :=
  BlockAt disk dev.sectorSize blockSizeShift s.mem (s.data p) b

/-- The states of a cache, and the blocks that were requested, with the last one in front. One
descriptor stays unlocked. -/
inductive Reachable (disk : Disk) (dev : Device) (start : State) : List UInt64 → State → Prop
  | init : Reachable disk dev start [] start
  | get {requests : List UInt64} {s : State} {b : UInt64} (h : Reachable disk dev start requests s)
      (hb : b ≠ noBlock) : Reachable disk dev start (b :: requests) (getCache disk dev s b).2
  | lock {requests : List UInt64} {s : State} {i j : Nat} (h : Reachable disk dev start requests s)
      (hi : i < dev.cacheEntries) (hu : s.next (.entry i) ≠ .null) (hj : j < dev.cacheEntries)
      (hk : s.next (.entry j) ≠ .null) (hne : j ≠ i) :
      Reachable disk dev start requests (cacheLockBlock s (.entry i))

/-- What holds of every state of the cache. -/
structure Sound (disk : Disk) (dev : Device) (blockSizeShift : Nat) (requests : List UInt64)
    (s : State) : Prop where
  unique : ∀ i < dev.cacheEntries, ∀ j < dev.cacheEntries,
    s.block (.entry i) = s.block (.entry j) → s.block (.entry i) ≠ noBlock → i = j
  coherent : ∀ i < dev.cacheEntries, s.block (.entry i) ≠ noBlock →
    Holds disk dev blockSizeShift s (.entry i) (s.block (.entry i))
  ring : ∃ lru : List Nat, Ring s.next s.prev .head (lru.map .entry) ∧
    lru.Perm ((List.range dev.cacheEntries).filter fun i => s.next (.entry i) ≠ .null)
  kept : (∀ i < dev.cacheEntries, s.next (.entry i) ≠ .null) →
    ∀ b ∈ (recent requests).take dev.cacheEntries, ∃ i < dev.cacheEntries, s.block (.entry i) = b

/-- Every request in a state returns a buffer with the block. -/
def Returns (disk : Disk) (dev : Device) (blockSizeShift : Nat) (s : State) : Prop :=
  ∀ b, b ≠ noBlock → BlockAt disk dev.sectorSize blockSizeShift (getCache disk dev s b).2.mem
    (getCache disk dev s b).1 b

/-- The block size fits in the field that keeps it, and a block consists of whole sectors. -/
def WholeBlocks (sectorSize blockSizeShift : Nat) : Prop :=
  blockSizeShift < 16 ∧ sectorSize ∣ 2 ^ blockSizeShift

variable {cacheData cacheSize sectorSize blockSizeShift : Nat} {s₀ start : State}

/-- The sizes that `cache_init` keeps. -/
theorem cacheInit_sizes
    (h : cacheInit cacheData cacheSize sectorSize blockSizeShift s₀ = some (dev, s)) :
    dev.cacheBlockSize = 2 ^ blockSizeShift % 2 ^ 16 ∧ dev.sectorSize = sectorSize := by
  rw [cacheInit] at h
  split_ifs at h with hsmall
  obtain ⟨rfl, -⟩ := Prod.mk.inj (Option.some.inj h)
  exact ⟨rfl, rfl⟩

/-- `getoneblk` reads no more than a block. -/
theorem blockBytes_le_of_init
    (h : cacheInit cacheData cacheSize sectorSize blockSizeShift s₀ = some (dev, s)) :
    dev.blockBytes ≤ 2 ^ blockSizeShift :=
  dev.blockBytes_le.trans ((cacheInit_sizes h).1.trans_le (Nat.mod_le _ _))

/-- `getoneblk` reads a whole block if and only if the sizes are right. -/
theorem blockBytes_eq_iff
    (h : cacheInit cacheData cacheSize sectorSize blockSizeShift s₀ = some (dev, s)) :
    dev.blockBytes = 2 ^ blockSizeShift ↔ WholeBlocks sectorSize blockSizeShift := by
  obtain ⟨hsize, hsector⟩ := cacheInit_sizes h
  constructor
  · intro hbytes
    have hshift : blockSizeShift < 16 := by
      by_contra hge
      have hzero : dev.cacheBlockSize = 0 := by
        rw [hsize]
        exact Nat.mod_eq_zero_of_dvd (Nat.pow_dvd_pow 2 (Nat.le_of_not_lt hge))
      have hle := dev.blockBytes_le
      rw [hbytes, hzero] at hle
      exact absurd hle (Nat.not_le.mpr (Nat.two_pow_pos blockSizeShift))
    exact ⟨hshift, hbytes ▸ hsector ▸ Nat.dvd_mul_left _ _⟩
  · rintro ⟨hshift, hdvd⟩
    rw [Device.blockBytes, Device.secPerBlock, hsize, hsector,
      Nat.mod_eq_of_lt (Nat.pow_lt_pow_right (by decide) hshift)]
    exact Nat.div_mul_cancel hdvd

/-- The sectors that `getoneblk` reads are those of the block. -/
theorem blockByte_eq (disk : Disk) (hpos : 0 < dev.sectorSize) (b : UInt64) (k : Nat) :
    blockByte disk dev b k = diskByte disk dev.sectorSize (b.toNat * dev.blockBytes + k) := by
  rw [blockByte, diskByte, Device.blockBytes, ← Nat.mul_assoc, Nat.add_comm _ k,
    Nat.add_mul_div_right _ _ hpos, Nat.add_mul_mod_self_right, UInt64.ofNat_add, UInt64.ofNat_mul,
    UInt64.ofNat_toNat, UInt64.add_comm]

/-- What was read is the whole block. -/
theorem Filled.holds {p : Ptr} (h : Filled disk dev s p b)
    (hbytes : dev.blockBytes = 2 ^ blockSizeShift) : Holds disk dev blockSizeShift s p b := by
  have hpos : 0 < dev.sectorSize := by
    refine Nat.pos_of_ne_zero fun hzero => ?_
    rw [Device.blockBytes, hzero, Nat.mul_zero] at hbytes
    exact absurd hbytes (Nat.two_pow_pos blockSizeShift).ne
  intro k hk
  rw [h k (hbytes ▸ hk), blockByte_eq disk hpos, hbytes]

/-- The invariant along a run. While no descriptor is locked, the labels are those of the last
requests. -/
theorem Reachable.inv {requests : List UInt64}
    (hinit : cacheInit cacheData cacheSize sectorSize blockSizeShift s₀ = some (dev, start))
    (hn : 1 ≤ dev.cacheEntries) (h : Reachable disk dev start requests s) :
    ∃ lru, lru ≠ [] ∧ Inv disk dev s lru ∧ ((∀ j < dev.cacheEntries, j ∈ lru) →
      labels s lru = (resident noBlock dev.cacheEntries requests).reverse) := by
  induction h with
  | init =>
    obtain ⟨hi, hempty⟩ := cacheInit_inv disk hinit
    exact ⟨_, range_ne_nil hn, hi, fun _ => labels_of_empty hempty⟩
  | get h hb ih =>
    obtain ⟨lru, hne, hi, hlabels⟩ := ih
    obtain ⟨i, s', lru', hget, hlt, -, hi', hperm, htouch⟩ := getCache_inv hi hne hb
    rw [hget]
    refine ⟨lru', fun heq => hne ?_, hi', fun hall => ?_⟩
    · rw [heq] at hperm
      exact hperm.symm.eq_nil
    · have hall : ∀ j < dev.cacheEntries, j ∈ lru := fun j hj => hperm.mem_iff.mp (hall j hj)
      rw [htouch hall, hlabels hall]
      exact touch_resident hb (Nat.zero_lt_of_lt hlt)
  | lock h hi hu hj hk hne ih =>
    obtain ⟨lru, -, hinv, -⟩ := ih
    obtain ⟨xs, ys, rfl⟩ := List.append_of_mem ((hinv.unlocked _).mpr ⟨hi, hu⟩)
    have hmem := (hinv.unlocked _).mpr ⟨hj, hk⟩
    refine ⟨xs ++ ys, fun heq => ?_, hinv.lock, fun hall => ?_⟩
    · rw [List.perm_middle.mem_iff, heq] at hmem
      exact hne (List.mem_singleton.mp hmem)
    · exact absurd (hall _ hi) (List.nodup_middle.mp hinv.nodup).notMem

/-- A cache that holds what it says gives the right blocks. -/
theorem Inv.sound {requests : List UInt64} (hi : Inv disk dev s lru)
    (hbytes : dev.blockBytes = 2 ^ blockSizeShift)
    (hlabels : (∀ j < dev.cacheEntries, j ∈ lru) →
      labels s lru = (resident noBlock dev.cacheEntries requests).reverse) :
    Sound disk dev blockSizeShift requests s := by
  refine ⟨hi.unique, fun i hlt hb => (hi.coherent i hlt hb).holds hbytes, ⟨lru, hi.ring, ?_⟩,
    fun hall b hb => ?_⟩
  · refine (List.perm_ext_iff_of_nodup hi.nodup (List.nodup_range.filter _)).mpr fun j => ?_
    rw [hi.unlocked, List.mem_filter, List.mem_range, decide_eq_true_eq]
  · have hmem : b ∈ labels s lru := by
      rw [hlabels fun j hj => (hi.unlocked j).mpr ⟨hj, hall j hj⟩, List.mem_reverse]
      exact mem_resident hb
    obtain ⟨j, hj, hjb⟩ := List.mem_map.mp hmem
    exact ⟨j, ((hi.unlocked j).mp hj).1, hjb⟩

/-- A cache with an entry to evict returns a block. -/
theorem Inv.returns (hi : Inv disk dev s lru) (hne : lru ≠ [])
    (hbytes : dev.blockBytes = 2 ^ blockSizeShift) : Returns disk dev blockSizeShift s := by
  intro b hb
  obtain ⟨i, s', lru', hget, hlt, hblock, hi', -, -⟩ := getCache_inv hi hne hb
  have hholds := (hi'.coherent i hlt (hblock.symm ▸ hb)).holds hbytes
  rw [hblock] at hholds
  rw [hget]
  exact hholds

/-- The first request leaves the byte behind those that are read as it was. -/
theorem getCache_behind
    (hinit : cacheInit cacheData cacheSize sectorSize blockSizeShift s₀ = some (dev, start))
    (hn : 1 ≤ dev.cacheEntries) (hb : b ≠ noBlock) : ∃ v, ∀ disk,
      (getCache disk dev start b).2.mem ((getCache disk dev start b).1 + dev.blockBytes) = v := by
  obtain ⟨hi, hempty⟩ := cacheInit_inv (fun _ _ => 0) hinit
  obtain ⟨i, s', lru', hget, -, hblock, hlt, -, -⟩ := getCacheBlock_inv hi (range_ne_nil hn) b
  have hother : s'.block (.entry i) ≠ b := by
    rw [hblock, hempty i hlt]
    exact hb.symm
  refine ⟨s'.mem (s'.data (.entry i) + dev.blockBytes), fun disk => ?_⟩
  rw [getCache, hget]
  dsimp only
  rw [if_pos hother]
  change getoneblk disk dev (s'.data (.entry i)) b s'.mem
    (s'.data (.entry i) + dev.blockBytes) = _
  rw [getoneblk, if_neg fun hin => (Nat.lt_irrefl _ hin.2)]

/-- When less than a block is read, the first request may return other bytes. -/
theorem exists_not_returns
    (hinit : cacheInit cacheData cacheSize sectorSize blockSizeShift s₀ = some (dev, start))
    (hn : 1 ≤ dev.cacheEntries) (hsizes : ¬WholeBlocks sectorSize blockSizeShift) :
    ∃ disk, ¬Returns disk dev blockSizeShift start := by
  have hlt : dev.blockBytes < 2 ^ blockSizeShift :=
    lt_of_le_of_ne (blockBytes_le_of_init hinit) fun heq => hsizes ((blockBytes_eq_iff hinit).mp heq)
  obtain ⟨v, hv⟩ := getCache_behind hinit hn (by decide : (0 : UInt64) ≠ noBlock)
  refine ⟨fun _ _ => v + 1, fun hreturns => ?_⟩
  have hbyte := hreturns 0 (by decide) dev.blockBytes hlt
  rw [hv, diskByte] at hbyte
  exact absurd hbyte (by simp)

/-- Every state of the cache is sound and every request in it returns a buffer with the block, if
and only if the block size fits in 16 bits and a block consists of whole sectors. -/
theorem getCache_sound_iff
    (hinit : cacheInit cacheData cacheSize sectorSize blockSizeShift s₀ = some (dev, start))
    (hn : 1 ≤ dev.cacheEntries) :
    (∀ disk requests s, Reachable disk dev start requests s →
        Sound disk dev blockSizeShift requests s ∧ Returns disk dev blockSizeShift s) ↔
      WholeBlocks sectorSize blockSizeShift := by
  constructor
  · intro h
    by_contra hsizes
    obtain ⟨disk, hnot⟩ := exists_not_returns hinit hn hsizes
    exact hnot (h disk [] start .init).2
  · intro hsizes disk requests s h
    have hbytes := (blockBytes_eq_iff hinit).mpr hsizes
    obtain ⟨lru, hne, hi, hlabels⟩ := h.inv hinit hn
    exact ⟨hi.sound hbytes hlabels, hi.returns hne hbytes⟩

/-- A cache with two blocks of two bytes. -/
def sampleDevice : Device := ⟨0, 2, 2, 2⟩

def sampleDisk : Disk := fun sector k => sector.toUInt8 * 16 + UInt8.ofNat k

def sampleState : State := ⟨fun _ => 0, fun _ => .null, fun _ => .null, fun _ => 0, fun _ => 0⟩

private def serve (s : State) (b : UInt64) : State := (getCache sampleDisk sampleDevice s b).2

private def held (s : State) : UInt64 × UInt64 × UInt8 × UInt8 :=
  (s.block (.entry 0), s.block (.entry 1), s.mem 0, s.mem 3)

/-- Requests for the blocks 5, 7, 5 and 9: block 7 has left. The next request for it reads it
again. -/
theorem getCache_sound_iff_sample : ∃ s : State,
    (s.block (.entry 0), s.block (.entry 1), s.mem 0, s.mem 3) = (5, 9, 0x50, 0x91) ∧
      Sound sampleDisk sampleDevice 1 [9, 5, 7, 5] s ∧ ∀ k < 2,
        (getCache sampleDisk sampleDevice s 7).2.mem
          ((getCache sampleDisk sampleDevice s 7).1 + k) = 0x70 + UInt8.ofNat k := by
  have hrun : (cacheInit 0 64 2 1 sampleState).map (fun r =>
      (r.1, held (serve (serve (serve (serve r.2 5) 7) 5) 9))) =
      some (sampleDevice, 5, 9, 0x50, 0x91) := by
    decide +kernel
  obtain ⟨⟨dev, s⟩, hinit, hresult⟩ := Option.map_eq_some_iff.mp hrun
  obtain ⟨rfl, hheld⟩ := Prod.ext_iff.mp hresult
  have hr : Reachable sampleDisk sampleDevice s [9, 5, 7, 5]
      (serve (serve (serve (serve s 5) 7) 5) 9) :=
    (((Reachable.init.get (by decide)).get (by decide)).get (by decide)).get (by decide)
  obtain ⟨hsound, hreturns⟩ := (getCache_sound_iff hinit (by decide)).mpr
    ⟨by decide, by decide⟩ _ _ _ hr
  refine ⟨_, hheld, hsound, fun k hk => ?_⟩
  rw [hreturns 7 (by decide) k hk]
  rcases (by omega : k = 0 ∨ k = 1) with rfl | rfl <;> decide

/-- A cache of 128 KiB on a volume with blocks of 64 KiB: nothing is read. -/
theorem getCache_not_sound : ¬∀ (cacheData cacheSize sectorSize blockSizeShift : Nat)
    (s₀ : State) (dev : Device) (start : State),
    cacheInit cacheData cacheSize sectorSize blockSizeShift s₀ = some (dev, start) →
    1 ≤ dev.cacheEntries → ∀ disk requests s, Reachable disk dev start requests s →
      Sound disk dev blockSizeShift requests s ∧ Returns disk dev blockSizeShift s := by
  intro h
  have hinit : (cacheInit 0x100000 0x20000 512 16 sampleState).map (fun r => r.1.cacheEntries) =
      some 6552 := by
    decide +kernel
  obtain ⟨⟨dev, start⟩, hinit, hentries⟩ := Option.map_eq_some_iff.mp hinit
  have hn : 1 ≤ dev.cacheEntries := (by decide : 1 ≤ 6552).trans_eq hentries.symm
  obtain ⟨disk, hnot⟩ := exists_not_returns hinit hn fun hsizes =>
    absurd hsizes.1 (Nat.lt_irrefl 16)
  exact hnot (h _ _ _ _ _ _ _ hinit hn disk [] start .init).2

end Liigboot.Fs.Cache
