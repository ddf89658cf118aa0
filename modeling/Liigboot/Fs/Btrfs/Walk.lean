import Liigboot.Fs.Btrfs.Search
import Mathlib.Data.List.Chain

/-!
# Walking through a btrfs tree

`next_leaf` starts the level below the slot that it moves on again, but not the levels further
down. The walk through a tree visits all items from the one on that is found, as long as the slots
of these levels are 0 already; in trees of one or two levels there are none.
-/

namespace Liigboot.Fs.Btrfs

variable {disk : BtrfsDisk} {key : BtrfsDiskKey} {depth level loffset root : Nat}
  {path path' : BtrfsPath}

/-! ## A path in a tree -/

/-- A well-formed tree has entries in every block. -/
theorem WellFormed.populated (h : WellFormed disk level loffset) :
    Populated (entries disk) (childOf disk) level loffset := by
  induction level generalizing loffset with
  | zero => exact h.pos
  | succ level ih => exact ⟨h.1.pos, fun i hi => ih (h.2 i hi).1⟩

/-- A path goes along the children. -/
theorem OnPath.along (h : OnPath disk key path level loffset) :
    Along (entries disk) (childOf disk) path.slots path.itemsnr level loffset := by
  induction level generalizing loffset with
  | zero => exact ⟨h.1.itemsnr_eq, h.1.slot_lt⟩
  | succ level ih => exact ⟨⟨h.1.itemsnr_eq, h.1.slot_lt⟩, ih h.2⟩

/-- It is on a block of the tree. -/
theorem OnPath.onBlock (h : OnPath disk key path level loffset) :
    OnBlock disk key path level loffset := by
  cases level with
  | zero => exact h.1
  | succ level => exact h.1

/-- The item of a path is the one at its end. -/
theorem OnPath.visit_eq (h : OnPath disk key path level loffset) :
    path.visit level = visitAt disk loffset (slotList path.slots level) := by
  have hleaf : ∃ leaf, leafOf disk loffset (slotList path.slots level) = (leaf, path.slots 0) ∧
      path.item = (disk leaf).items (path.slots 0) ∧
      path.data = (disk leaf).data path.item.offset path.item.size := by
    induction level generalizing loffset with
    | zero => exact ⟨loffset, rfl, h.2.1, h.2.2⟩
    | succ level ih =>
      obtain ⟨leaf, hleaf, hrest⟩ := ih h.2
      refine ⟨leaf, ?_, hrest⟩
      rw [← hleaf]
      cases level with
      | zero => rfl
      | succ level => rfl
  obtain ⟨leaf, hleaf, hitem, hdata⟩ := hleaf
  rw [BtrfsPath.visit, visitAt, hleaf, hdata, hitem]

/-- The part of a path below a level. -/
theorem OnPath.below {step : Nat} (hwf : WellFormed disk level loffset)
    (h : OnPath disk key path level loffset) (hstep : step ≤ level) :
    WellFormed disk step (path.offsets step) ∧
      OnPath disk key path step (path.offsets step) := by
  induction level generalizing loffset with
  | zero =>
    obtain rfl := Nat.le_zero.mp hstep
    rw [h.1.offsets_eq]
    exact ⟨hwf, h⟩
  | succ level ih =>
    rcases Nat.lt_or_eq_of_le hstep with hlt | rfl
    · exact ih (hwf.2 _ h.1.slot_lt).1 h.2 (Nat.le_of_lt_succ hlt)
    · rw [h.1.offsets_eq]
      exact ⟨hwf, h⟩

/-- A path that is changed up to a level only. -/
theorem OnPath.lift {step : Nat} (h : OnPath disk key path level loffset) (hstep : step ≤ level)
    (h' : OnPath disk key path' step (path.offsets step)) (hsame : SameAbove step path path') :
    OnPath disk key path' level loffset := by
  induction level generalizing loffset with
  | zero =>
    obtain rfl := Nat.le_zero.mp hstep
    rw [h.1.offsets_eq] at h'
    exact h'
  | succ level ih =>
    rcases Nat.lt_or_eq_of_le hstep with hlt | rfl
    · obtain ⟨⟨hoffsets, hitemsnr, hslot, hlate⟩, hrest⟩ := h
      obtain ⟨hoffsets', hitemsnr', hslots'⟩ := hsame (level + 1) hlt
      refine ⟨⟨hoffsets'.trans hoffsets, hitemsnr'.trans hitemsnr, ?_, ?_⟩, ?_⟩
      · rw [hslots']
        exact hslot
      · rw [hslots']
        exact hlate
      · rw [hslots']
        exact ih hrest (Nat.le_of_lt_succ hlt)
    · rw [h.1.offsets_eq] at h'
      exact h'

/-- The path leads to an item of a tree, and has no blocks above its root. -/
structure OnTree (disk : BtrfsDisk) (key : BtrfsDiskKey) (path : BtrfsPath)
    (level root : Nat) : Prop where
  onPath : OnPath disk key path level root
  above : ∀ j, level < j → path.itemsnr j = 0

/-! ## One step -/

/-- The path behind `next_slot`, or `next_leaf` when there is no further slot. -/
def nextPath (disk : BtrfsDisk) (key : BtrfsDiskKey) (depth : Nat) (path : BtrfsPath) :
    Option (Option BtrfsPath) :=
  match nextSlot disk key depth path with
  | none => none
  | some (0, path') => some (some path')
  | some (_ + 1, path) =>
    match nextLeaf disk key depth path with
    | none => none
    | some (0, path') => some (some path')
    | some (_ + 1, _) => some none

/-- The walk goes on at the next path. -/
theorem visitLoop_succ (calls : Nat) :
    visitLoop disk key depth level (calls + 1) path =
      match nextPath disk key depth path with
      | none => none
      | some none => some [path.visit level]
      | some (some path') =>
        (visitLoop disk key depth level calls path').map (path.visit level :: ·) := by
  rw [visitLoop, nextPath]
  rcases nextSlot disk key depth path with _ | ⟨_ | ret, path'⟩
  · rfl
  · rfl
  · dsimp only
    rcases nextLeaf disk key depth path' with _ | ⟨_ | ret, path'⟩
    · rfl
    · rfl
    · rfl

/-- The slots that are searched from when a slot moves on. -/
def moved (slots : Nat → Nat) : Nat → Nat → Nat
  | 0 => store slots 0 (slots 0 + 1)
  | step + 1 => store (store slots (step + 1) (slots (step + 1) + 1)) step 0

theorem itemsnr_pos (h : OnTree disk key path level root) {j : Nat} (hj : j ≤ level) :
    path.itemsnr j ≠ 0 := by
  have hon := h.onPath
  generalize root = loffset at hon
  clear h
  induction level generalizing loffset with
  | zero =>
    obtain rfl := Nat.le_zero.mp hj
    rw [hon.1.itemsnr_eq]
    exact Nat.ne_zero_of_lt hon.1.slot_lt
  | succ level ih =>
    rcases Nat.lt_or_eq_of_le hj with hlt | rfl
    · exact ih (Nat.le_of_lt_succ hlt) _ hon.2
    · rw [hon.1.itemsnr_eq]
      exact Nat.ne_zero_of_lt hon.1.slot_lt

/-- Where no level has a further slot, `next_leaf` says so. -/
theorem nextLeafLoop_last (h : OnTree disk key path level root) {levels l : Nat} (hl : 1 ≤ l)
    (hlast : ∀ j ≤ level, path.itemsnr j ≤ path.slots j + 1) :
    nextLeafLoop disk key depth path levels l = some (1, path) := by
  induction levels generalizing l with
  | zero => rfl
  | succ levels ih =>
    rw [nextLeafLoop]
    dsimp only
    rcases Nat.lt_or_ge level l with hlt | hge
    · rw [if_pos (h.above l hlt)]
    · rw [if_neg (itemsnr_pos h hge), if_pos (hlast l hge)]
      exact ih (Nat.le_succ_of_le hl)

/-- `next_leaf` moves the lowest level on that has a further slot. -/
theorem nextLeafLoop_step (h : OnTree disk key path level root) {levels l step : Nat} (hl : 1 ≤ l)
    (hle : l ≤ step) (hstep : step ≤ level) (hlevels : step < levels + l)
    (hlast : ∀ j < step, path.itemsnr j ≤ path.slots j + 1)
    (hmore : path.slots step + 1 < path.itemsnr step) :
    nextLeafLoop disk key depth path levels l =
      (searchTree disk key depth (path.offsets step)
        { path with slots := moved path.slots step }).map fun (_, path) => (0, path) := by
  induction levels generalizing l with
  | zero => omega
  | succ levels ih =>
    rw [nextLeafLoop, if_neg (itemsnr_pos h (hle.trans hstep))]
    dsimp only
    rcases Nat.lt_or_eq_of_le hle with hlt | rfl
    · rw [if_pos (hlast l hlt)]
      exact ih (Nat.le_succ_of_le hl) hlt (by omega)
    · rw [if_neg (Nat.not_le.mpr hmore)]
      obtain ⟨l, rfl⟩ := Nat.exists_eq_succ_of_ne_zero (Nat.ne_zero_of_lt hl)
      rfl

/-- Behind the last entry of every block there is no next path. -/
theorem nextPath_last (h : OnTree disk key path level root)
    (hlast : ∀ j ≤ level, path.itemsnr j ≤ path.slots j + 1) :
    nextPath disk key depth path = some none := by
  rw [nextPath, nextSlot, if_neg (itemsnr_pos h (Nat.zero_le level))]
  dsimp only
  rw [if_pos (hlast 0 (Nat.zero_le level))]
  dsimp only
  rw [nextLeaf, nextLeafLoop_last h le_rfl hlast]

/-- Otherwise the lowest level with an entry left goes on. -/
theorem nextPath_step (h : OnTree disk key path level root) (hlevel : level < btrfsMaxLevel)
    {step : Nat} (hstep : step ≤ level)
    (hlast : ∀ j < step, path.itemsnr j ≤ path.slots j + 1)
    (hmore : path.slots step + 1 < path.itemsnr step) :
    nextPath disk key depth path = (searchTree disk key depth (path.offsets step)
      { path with slots := moved path.slots step }).map fun (_, path) => some path := by
  rw [nextPath, nextSlot, if_neg (itemsnr_pos h (Nat.zero_le level))]
  dsimp only
  cases step with
  | zero =>
    rw [if_neg (Nat.not_le.mpr hmore)]
    rw [moved]
    rcases searchTree disk key depth (path.offsets 0)
      { path with slots := store path.slots 0 (path.slots 0 + 1) } with _ | ⟨ret, path'⟩
    · rfl
    · rfl
  | succ step =>
    rw [if_pos (hlast 0 (Nat.succ_pos step))]
    dsimp only
    rw [nextLeaf, nextLeafLoop_step h le_rfl (Nat.succ_pos step) hstep
      (by rw [btrfsMaxLevel] at *; omega) hlast hmore]
    rcases searchTree disk key depth (path.offsets (step + 1))
      { path with slots := moved path.slots (step + 1) } with _ | ⟨ret, path'⟩
    · rfl
    · rfl

theorem moved_self (slots : Nat → Nat) (step : Nat) : moved slots step step = slots step + 1 := by
  cases step with
  | zero => exact store_self _ _ _
  | succ step =>
    rw [moved, store_of_ne (Nat.succ_ne_self step)]
    exact store_self _ _ _

/-- The levels above it stay. -/
theorem moved_of_lt {slots : Nat → Nat} {step j : Nat} (h : step < j) :
    moved slots step j = slots j := by
  cases step with
  | zero => exact store_of_ne h.ne'
  | succ step => rw [moved, store_of_ne (by omega), store_of_ne h.ne']

/-- So do the levels that are looked up again. -/
theorem moved_of_succ_lt {slots : Nat → Nat} {step j : Nat} (h : j + 1 < step) :
    moved slots step j = slots j := by
  cases step with
  | zero => omega
  | succ step => rw [moved, store_of_ne (by omega), store_of_ne (by omega)]

/-- The slots below are 0 when those that are not reset are. -/
theorem moved_below {slots : Nat → Nat} {step : Nat} (h : ∀ j, j + 1 < step → slots j = 0) :
    ∀ j < step, moved slots step j = 0 := by
  intro j hj
  rcases Nat.lt_or_eq_of_le (Nat.succ_le_of_lt hj) with hlt | rfl
  · rw [moved_of_succ_lt hlt, h j hlt]
  · exact store_self _ _ _

/-- What holds of all slots of a path. -/
theorem slotList_all {slots : Nat → Nat} {p : Nat → Bool} :
    (slotList slots level).all p = true ↔ ∀ j ≤ level, p (slots j) = true := by
  induction level with
  | zero =>
    rw [slotList, List.all_cons, List.all_nil, Bool.and_true]
    exact ⟨fun h j hj => Nat.le_zero.mp hj ▸ h, fun h => h 0 le_rfl⟩
  | succ level ih =>
    rw [slotList, List.all_cons, Bool.and_eq_true, ih]
    refine ⟨fun h j hj => ?_, fun h => ⟨h _ le_rfl, fun j hj => h j (Nat.le_succ_of_le hj)⟩⟩
    rcases Nat.lt_or_eq_of_le hj with hlt | rfl
    · exact h.2 j (Nat.le_of_lt_succ hlt)
    · exact h.1

/-- A climb is right when the lower slots are at their start. -/
theorem climbOk_iff {slots : Nat → Nat} {step : Nat} (hstep : step ≤ level) :
    climbOk (slotList slots level) (slotList (advance slots step) level) = true ↔
      ∀ j, j + 1 < step → slots j = 0 := by
  have hself : slots step ≠ advance slots step step := by
    rw [advance, if_neg (lt_irrefl _), if_pos rfl]
    exact (Nat.succ_ne_self _).symm
  induction level with
  | zero =>
    obtain rfl := Nat.le_zero.mp hstep
    rw [slotList, slotList, climbOk, if_neg hself]
    exact ⟨fun _ j hj => absurd hj (Nat.not_lt_zero _), fun _ => rfl⟩
  | succ level ih =>
    rw [slotList, slotList, climbOk]
    rcases Nat.lt_or_eq_of_le hstep with hlt | rfl
    · have hsame : advance slots step (level + 1) = slots (level + 1) := by
        rw [advance, if_neg (by omega), if_neg (by omega)]
      rw [if_pos hsame.symm]
      exact ih (Nat.le_of_lt_succ hlt)
    · rw [if_neg hself]
      cases level with
      | zero => exact ⟨fun _ j hj => by omega, fun _ => rfl⟩
      | succ level =>
        rw [slotList, List.drop_succ_cons, List.drop_zero, slotList_all]
        simp only [decide_eq_true_eq]
        exact ⟨fun h j hj => h j (by omega), fun h j hj => h j (by omega)⟩

/-- A step whose lower slots are 0 already goes to the next path. -/
theorem nextPath_clean (hwf : WellFormed disk level root) (hfits : disk.Fits level)
    (h : OnTree disk key path level root) (hlevel : level < btrfsMaxLevel) (hdepth : level < depth)
    {step : Nat} (hstep : step ≤ level)
    (hlast : ∀ j < step, path.itemsnr j ≤ path.slots j + 1)
    (hmore : path.slots step + 1 < path.itemsnr step)
    (hclean : ∀ j, j + 1 < step → path.slots j = 0) :
    ∃ path', nextPath disk key depth path = some (some path') ∧
      OnTree disk key path' level root ∧
      slotList path'.slots level = slotList (advance path.slots step) level := by
  obtain ⟨hwfStep, honStep⟩ := h.onPath.below hwf hstep
  have hblock := honStep.onBlock
  have hslot := moved_self path.slots step
  rw [hblock.itemsnr_eq] at hmore
  have hfind : findSlot disk key (path.offsets step) (moved path.slots step step) =
      path.slots step + 1 := by
    rw [hslot]
    exact findSlot_of_late fun i hi hin => hblock.late i hi hin
  obtain ⟨ret, path', hsearch, hon', hlist, hsame⟩ := @searchTree_descend disk key depth step _
    { path with slots := moved path.slots step } _ hwfStep (hfits.mono hstep) (by omega) (by omega)
    (moved_below hclean) hfind hmore fun i hi hin => hblock.late i (by omega) hin
  rw [← hblock.itemsnr_eq] at hmore
  have habove : SameAbove step path path' := by
    intro j hj
    obtain ⟨hoffsets, hitemsnr, hslots⟩ := hsame j hj
    exact ⟨hoffsets, hitemsnr, hslots.trans (moved_of_lt hj)⟩
  refine ⟨path', ?_, ⟨h.onPath.lift hstep hon' habove, fun j hj => ?_⟩, ?_⟩
  · rw [nextPath_step h hlevel hstep hlast hmore, hsearch]
    rfl
  · rw [(habove j (by omega)).2.1, h.above j hj]
  · have hlow : slotList path'.slots step = slotList (advance path.slots step) step := by
      rw [hlist]
      cases step with
      | zero =>
        rw [startFrom, slotList, advance, if_neg (lt_irrefl _), if_pos rfl]
      | succ step =>
        obtain ⟨hchild, hbound⟩ := hwfStep.2 _ (hblock.itemsnr_eq ▸ hmore)
        have hlate := hblock.late _ (Nat.lt_succ_self _) (hblock.itemsnr_eq ▸ hmore)
        rw [startFrom, startSlots_of_late hchild fun i hi => hlate.trans_le (hbound i hi),
          slotList]
        congr 1
        · rw [advance, if_neg (lt_irrefl _), if_pos rfl]
        · exact slotList_congr fun j hj => (if_pos (Nat.lt_succ_of_le hj)).symm
    refine slotList_congr fun j hj => ?_
    rcases Nat.lt_or_ge step j with hlt | hge
    · rw [(habove j hlt).2.2, advance, if_neg (by omega), if_neg (by omega)]
    · exact slotList_inj hlow j hge

/-- Any other step goes elsewhere. -/
theorem nextPath_stale (h : OnTree disk key path level root) (hlevel : level < btrfsMaxLevel)
    {step : Nat} (hstep : step ≤ level) (hlast : ∀ j < step, path.itemsnr j ≤ path.slots j + 1)
    (hmore : path.slots step + 1 < path.itemsnr step)
    (hstale : ¬∀ j, j + 1 < step → path.slots j = 0) :
    nextPath disk key depth path = none ∨
      ∃ path', nextPath disk key depth path = some (some path') ∧
        slotList path'.slots level ≠ slotList (advance path.slots step) level := by
  rw [nextPath_step h hlevel hstep hlast hmore]
  cases hsearch : searchTree disk key depth (path.offsets step)
    { path with slots := moved path.slots step } with
  | none => exact Or.inl rfl
  | some found =>
    obtain ⟨ret, path'⟩ := found
    refine Or.inr ⟨path', rfl, fun heq => hstale fun j hj => ?_⟩
    have hmono := searchTree_mono hsearch j
    rw [slotList_inj heq j (by omega), advance, if_pos (by omega)] at hmono
    dsimp only at hmono
    rw [moved_of_succ_lt hj] at hmono
    exact Nat.le_zero.mp hmono

/-! ## The whole walk -/

/-- The walk begins with the item of its path. -/
theorem visitLoop_head {calls : Nat} {visits : List Visit}
    (h : visitLoop disk key depth level calls path = some visits) :
    ∃ rest, visits = path.visit level :: rest := by
  cases calls with
  | zero => exact nomatch h
  | succ calls =>
    rw [visitLoop_succ] at h
    rcases hnext : nextPath disk key depth path with _ | _ | path'
    · rw [hnext] at h
      exact nomatch h
    · rw [hnext] at h
      exact ⟨[], (Option.some.inj h).symm⟩
    · rw [hnext] at h
      obtain ⟨rest, -, hrest⟩ := Option.map_eq_some_iff.mp h
      exact ⟨rest, hrest.symm⟩

/-- The walk from a path visits the items from its own on, if and only if no step between them
leaves a slot behind. -/
theorem visitLoop_iff (hwf : WellFormed disk level root) (hfits : disk.Fits level)
    (hlevel : level < btrfsMaxLevel) (hdepth : level < depth) (h : OnTree disk key path level root) :
    (∃ calls, visitLoop disk key depth level calls path =
      some ((pathsFrom (entries disk) (childOf disk) path.slots level root).map
        (visitAt disk root))) ↔
      (pathsFrom (entries disk) (childOf disk) path.slots level root).IsChain
        fun p q => climbOk p q = true := by
  generalize hpaths : pathsFrom (entries disk) (childOf disk) path.slots level root = rest
  induction rest generalizing path with
  | nil =>
    obtain ⟨rest, hrest⟩ := pathsFrom_head h.onPath.along
    rw [hpaths] at hrest
    exact absurd hrest (List.cons_ne_nil _ _).symm
  | cons p rest ih =>
    have hvisit := h.onPath.visit_eq
    rcases last_or_lowest path.slots path.itemsnr level with hlast | ⟨step, hstep, hlast, hmore⟩
    · rw [pathsFrom_last h.onPath.along hlast] at hpaths
      obtain ⟨rfl, rfl⟩ := List.cons.inj hpaths
      refine ⟨fun _ => List.isChain_singleton _, fun _ => ⟨1, ?_⟩⟩
      rw [visitLoop_succ, nextPath_last h hlast, List.map_cons, ← hvisit]
      rfl
    · rw [pathsFrom_next hwf.populated h.onPath.along hstep hlast hmore] at hpaths
      obtain ⟨rfl, hrest⟩ := List.cons.inj hpaths
      by_cases hclean : ∀ j, j + 1 < step → path.slots j = 0
      · obtain ⟨path', hnext, h', hslots⟩ :=
          @nextPath_clean disk key depth level root path hwf hfits h hlevel hdepth step hstep hlast
            hmore hclean
        have hpaths' : pathsFrom (entries disk) (childOf disk) path'.slots level root = rest := by
          rw [← hrest]
          exact pathsFrom_congr (slotList_inj hslots)
        obtain ⟨tail, htail⟩ := pathsFrom_head h'.onPath.along
        have hchain : (slotList path.slots level :: rest).IsChain (fun p q => climbOk p q = true) ↔
            rest.IsChain fun p q => climbOk p q = true := by
          rw [← hpaths', htail, List.isChain_cons_cons, hslots]
          exact and_iff_right ((climbOk_iff hstep).mpr hclean)
        rw [hchain, ← ih h' hpaths', List.map_cons, ← hvisit]
        constructor
        · rintro ⟨_ | calls, hcalls⟩
          · exact nomatch hcalls
          · rw [visitLoop_succ, hnext] at hcalls
            obtain ⟨visits, hvisits, heq⟩ := Option.map_eq_some_iff.mp hcalls
            rw [(List.cons.inj heq).2] at hvisits
            exact ⟨calls, hvisits⟩
        · rintro ⟨calls, hcalls⟩
          refine ⟨calls + 1, ?_⟩
          rw [visitLoop_succ, hnext]
          dsimp only
          rw [hcalls]
          rfl
      · -- The next visit is behind a slot that is not 0, but the next item is not.
        obtain ⟨tail, htail⟩ :=
          pathsFrom_advance_head hwf.populated h.onPath.along hstep hmore
        rw [← hrest, htail, List.isChain_cons_cons, climbOk_iff hstep]
        refine ⟨fun hex => ?_, fun hchain => absurd hchain.1 hclean⟩
        obtain ⟨_ | calls, hcalls⟩ := hex
        · exact nomatch hcalls
        · rw [visitLoop_succ] at hcalls
          rcases @nextPath_stale disk key depth level root path h hlevel step hstep hlast hmore
            hclean with hnone | ⟨path', hnext, hne⟩
          · rw [hnone] at hcalls
            exact nomatch hcalls
          · rw [hnext] at hcalls
            obtain ⟨visits, hvisits, heq⟩ := Option.map_eq_some_iff.mp hcalls
            rw [List.map_cons, List.map_cons] at heq
            obtain ⟨others, rfl⟩ := visitLoop_head hvisits
            have hhead := (List.cons.inj (List.cons.inj heq).2).1
            exact absurd (congrArg Visit.slots hhead) hne

/-- In a sorted list, the end from an entry on holds what is not in front of it. -/
theorem filter_of_sorted {α : Type*} {rank : α → Nat} {front rest : List α} {x : α}
    (h : (front ++ x :: rest).Pairwise fun a b => rank a < rank b) :
    (front ++ x :: rest).filter (fun a => decide (rank x ≤ rank a)) = x :: rest := by
  obtain ⟨-, hrest, hfront⟩ := List.pairwise_append.mp h
  rw [List.filter_append, List.filter_eq_nil_iff.mpr, List.nil_append, List.filter_eq_self]
  · intro a ha
    rcases List.mem_cons.mp ha with rfl | ha
    · exact decide_eq_true le_rfl
    · exact decide_eq_true ((List.pairwise_cons.mp hrest).1 a ha).le
  · intro a ha
    rw [decide_eq_true_eq]
    exact Nat.not_le.mpr (hfront a ha x List.mem_cons_self)

/-- The walk visits the items of a tree from the one on that is found, each once and in order, if
and only if its blocks fit the buffer, there is an item and no step leaves a slot behind. -/
theorem btrfs_walk_iff (t : BtrfsTree) (key : BtrfsDiskKey) (depth : Nat)
    (hdepth : t.level < depth) :
    (∃ calls, visitTree t.disk key depth t.level t.root calls = some (t.visitsFrom key)) ↔
      t.disk.Fits t.level ∧ t.visitsFrom key ≠ [] ∧
        ((t.visitsFrom key).map Visit.slots).IsChain fun p q => climbOk p q = true := by
  rcases t.wellFormed with hwf | ⟨hlevel, -, hempty⟩
  · by_cases hfits : t.disk.Fits t.level
    · obtain ⟨hlt, hlate⟩ := @startSlot_spec t.disk key t.level t.root hwf.sorted
      obtain ⟨ret, path, hsearch, hon, hlist, hsame⟩ := @searchTree_descend t.disk key depth
        t.level t.root clearPath _ hwf hfits t.level_lt hdepth (fun _ _ => rfl) rfl hlt hlate
      have htree : OnTree t.disk key path t.level t.root := ⟨hon, fun j hj => (hsame j hj).2.1⟩
      have hstart : startSlots t.disk key t.level t.root = slotList path.slots t.level := by
        rw [hlist]
        exact startSlots_eq hwf.sorted
      have hvisits : t.visitsFrom key =
          (pathsFrom (entries t.disk) (childOf t.disk) path.slots t.level t.root).map
            (visitAt t.disk t.root) := by
        obtain ⟨front, hfront⟩ := paths_eq_append hon.along
        obtain ⟨rest, hrest⟩ := pathsFrom_head hon.along
        have hall : allVisits t.disk t.level t.root = front.map (visitAt t.disk t.root) ++
            visitAt t.disk t.root (slotList path.slots t.level) ::
              rest.map (visitAt t.disk t.root) := by
          rw [allVisits, hfront, hrest, List.map_append, List.map_cons]
        have hsorted := t.sorted
        rw [hall] at hsorted
        rw [BtrfsTree.visitsFrom, hstart, hrest, List.map_cons, hall]
        exact filter_of_sorted hsorted
      have hslots : (t.visitsFrom key).map Visit.slots =
          pathsFrom (entries t.disk) (childOf t.disk) path.slots t.level t.root := by
        rw [hvisits, List.map_map]
        exact List.map_id _
      have hne : t.visitsFrom key ≠ [] := by
        obtain ⟨rest, hrest⟩ := pathsFrom_head hon.along
        rw [hvisits, hrest]
        exact List.cons_ne_nil _ _
      rw [and_iff_right hfits, and_iff_right hne, hslots,
        ← visitLoop_iff hwf hfits t.level_lt hdepth htree, hvisits]
      simp only [visitTree, hsearch]
    · refine iff_of_false (fun ⟨calls, hcalls⟩ => ?_) fun h => hfits h.1
      rw [visitTree, searchTree_unfit hwf hfits t.level_lt fun _ _ => rfl] at hcalls
      exact nomatch hcalls
  · -- In an empty tree the walk begins with an item that is not there.
    have hnone : t.visitsFrom key = [] := by
      rw [BtrfsTree.visitsFrom, allVisits, hlevel, paths, hempty]
      rfl
    rw [hnone]
    refine ⟨fun hex => ?_, fun h => absurd rfl h.2.1⟩
    obtain ⟨calls, hcalls⟩ := hex
    rw [visitTree] at hcalls
    cases hsearch : searchTree t.disk key depth t.root clearPath with
    | none =>
      rw [hsearch] at hcalls
      cases hcalls
    | some found =>
      rw [hsearch] at hcalls
      obtain ⟨rest, hrest⟩ := visitLoop_head hcalls
      exact absurd hrest (List.cons_ne_nil _ _).symm

/-! ## Examples -/

/-- The key of an item with a number. -/
def sampleKey (n : UInt64) : BtrfsDiskKey := ⟨n, 1, 0⟩

/-- A tree of three levels with four items: a root, two nodes with a pointer each, and two leaves
with two items each. -/
def sampleBlocks : Nat → Block
  | 0 => ⟨2, 2, fun i => if i = 0 then ⟨sampleKey 1, 1⟩ else ⟨sampleKey 3, 2⟩,
    fun _ => ⟨sampleKey 0, 0, 0⟩, fun _ _ => []⟩
  | 1 => ⟨1, 1, fun _ => ⟨sampleKey 1, 3⟩, fun _ => ⟨sampleKey 0, 0, 0⟩, fun _ _ => []⟩
  | 2 => ⟨1, 1, fun _ => ⟨sampleKey 3, 4⟩, fun _ => ⟨sampleKey 0, 0, 0⟩, fun _ _ => []⟩
  | 3 => ⟨0, 2, fun _ => ⟨sampleKey 0, 0⟩,
    fun i => if i = 0 then ⟨sampleKey 1, 0, 0⟩ else ⟨sampleKey 2, 0, 0⟩, fun _ _ => []⟩
  | _ => ⟨0, 2, fun _ => ⟨sampleKey 0, 0⟩,
    fun i => if i = 0 then ⟨sampleKey 3, 0, 0⟩ else ⟨sampleKey 4, 0, 0⟩, fun _ _ => []⟩

def sampleDisk : BtrfsDisk := ⟨4096, 4096, sampleBlocks⟩

private theorem sorted_one {b : Block} (hlevel : b.level = level) (hn : b.nritems = 1) :
    b.Sorted level := by
  refine ⟨hlevel, ?_, fun i j hlt hj => ?_⟩
  · omega
  · omega

private theorem sorted_two {b : Block} (hlevel : b.level = level) (hn : b.nritems = 2)
    (h : (b.key 0).rank < (b.key 1).rank) : b.Sorted level := by
  refine ⟨hlevel, ?_, fun i j hlt hj => ?_⟩
  · omega
  · obtain rfl : i = 0 := by omega
    obtain rfl : j = 1 := by omega
    exact h

/-- The sample is well formed. -/
theorem sampleDisk_wellFormed : WellFormed sampleDisk 2 0 := by
  have hleaf : ∀ loffset, loffset = 3 ∨ loffset = 4 → WellFormed sampleDisk 0 loffset := by
    rintro loffset (rfl | rfl)
    · exact ⟨sorted_two rfl rfl (by decide), fun h => absurd rfl h, fun _ => by decide,
        fun _ => by decide⟩
    · exact ⟨sorted_two rfl rfl (by decide), fun h => absurd rfl h, fun _ => by decide,
        fun _ => by decide⟩
  have hfirst : ∀ j < 2, (sampleKey 1).rank ≤ ((sampleDisk 3).key j).rank := by decide
  have hsecond : ∀ j < 2, (sampleKey 3).rank ≤ ((sampleDisk 4).key j).rank := by decide
  have hnode : ∀ loffset, loffset = 1 ∨ loffset = 2 → WellFormed sampleDisk 1 loffset := by
    rintro loffset (rfl | rfl)
    · exact ⟨⟨sorted_one rfl rfl, fun _ => by decide, nofun, nofun⟩,
        fun i _ => ⟨hleaf _ (Or.inl rfl), hfirst⟩⟩
    · exact ⟨⟨sorted_one rfl rfl, fun _ => by decide, nofun, nofun⟩,
        fun i _ => ⟨hleaf _ (Or.inr rfl), hsecond⟩⟩
  refine ⟨⟨sorted_two rfl rfl (by decide), fun _ => by decide, nofun, nofun⟩, fun i hi => ?_⟩
  obtain rfl | rfl : i = 0 ∨ i = 1 := Nat.le_one_iff_eq_zero_or_eq_one.mp (Nat.le_of_lt_succ hi)
  · exact ⟨hnode _ (Or.inl rfl), (by decide : ∀ j < 1, _)⟩
  · exact ⟨hnode _ (Or.inr rfl), (by decide : ∀ j < 1, _)⟩

def sampleTree : BtrfsTree :=
  ⟨sampleDisk, 0, 2, by decide, Or.inl sampleDisk_wellFormed, by decide +kernel⟩

/-- The walk over a tree of height two. -/
theorem btrfs_walk_iff_sample :
    (∃ calls, visitTree sampleTree.disk (sampleKey 1) 3 sampleTree.level sampleTree.root calls =
      some (sampleTree.visitsFrom (sampleKey 1))) ↔
      sampleTree.disk.Fits sampleTree.level ∧ sampleTree.visitsFrom (sampleKey 1) ≠ [] ∧
        ((sampleTree.visitsFrom (sampleKey 1)).map Visit.slots).IsChain
          fun p q => climbOk p q = true :=
  btrfs_walk_iff sampleTree (sampleKey 1) 3 (by decide)

/-- The first item of the second leaf is left out. -/
theorem btrfs_walk_skips : ¬∀ (t : BtrfsTree) (key : BtrfsDiskKey) (depth : Nat),
    t.level < depth →
      ∃ calls, visitTree t.disk key depth t.level t.root calls = some (t.visitsFrom key) := by
  intro h
  obtain ⟨calls, hcalls⟩ := h sampleTree (sampleKey 1) 3 (by decide)
  have hall : (sampleTree.visitsFrom (sampleKey 1)).map Visit.slots =
      [[0, 0, 0], [0, 0, 1], [1, 0, 0], [1, 0, 1]] := by
    decide +kernel
  have hslots : (visitTree sampleDisk (sampleKey 1) 3 2 0 calls).map (List.map Visit.slots) =
      some [[0, 0, 0], [0, 0, 1], [1, 0, 0], [1, 0, 1]] := by
    rw [← hall]
    exact congrArg (Option.map (List.map Visit.slots)) hcalls
  have hthree : ∀ calls, (visitTree sampleDisk (sampleKey 1) 3 2 0 (calls + 3)).map
      (List.map Visit.slots) = some [[0, 0, 0], [0, 0, 1], [1, 0, 1]] := fun _ => rfl
  rcases calls with _ | _ | _ | calls
  · exact nomatch hslots
  · exact nomatch hslots
  · exact nomatch hslots
  · rw [hthree] at hslots
    exact absurd hslots (by decide)

end Liigboot.Fs.Btrfs
