import Liigboot.Fs.Ext2.Extents

/-!
# The extents that a tree holds

A well-formed tree has sorted keys and extents that do not overlap. Extents that are longer than
32768 blocks by their length field are unwritten. The blocks of a file that no written extent covers
are zeros.
-/

namespace Liigboot.Fs.Ext2

/-- `EXT_INIT_MAX_LEN`: a larger length field is that of an unwritten extent. -/
def extInitMaxLen : Nat := 32768

namespace Ext4Extent

variable (e : Ext4Extent)

def Written : Prop := e.eeLen ≤ extInitMaxLen

instance : Decidable e.Written := inferInstanceAs (Decidable (_ ≤ _))

/-- The number of blocks. -/
def blocks : Nat := if e.Written then e.eeLen else e.eeLen - extInitMaxLen

/-- The first physical block. -/
def start : Nat := e.eeStartHi * 2 ^ 32 + e.eeStartLo

def Covers (b : Nat) : Prop := e.eeBlock ≤ b ∧ b < e.eeBlock + e.blocks

/-- The extent has blocks, lies between two block numbers and is on the volume: block 0 holds no
data. -/
structure Sound (lo hi : Nat) : Prop where
  blocks_pos : 0 < e.blocks
  lo_le : lo ≤ e.eeBlock
  le_hi : e.eeBlock + e.blocks ≤ hi
  start_pos : 0 < e.start

end Ext4Extent

/-- The block number behind child `i` of a node. -/
def childEnd (eh : Memory) (n hi i : Nat) : Nat := if i + 1 < n then eiBlock eh (i + 1) else hi

/-- A well-formed tree of some depth for the blocks from `lo` to `hi`, with its extents in order. -/
inductive ExtentTree (fs : Ext4Fs) : Nat → Nat → Nat → Memory → List Ext4Extent → Prop where
  | leaf {lo hi : Nat} {eh : Memory} {es : List Ext4Extent} (hmagic : ehMagic eh = ext4ExtMagic)
      (hdepth : ehDepth eh = 0) (hcount : ehEntries eh = es.length)
      (hentry : ∀ i (h : i < es.length), es[i] = extentAt eh i)
      (hsorted : es.Pairwise fun a b => a.eeBlock + a.blocks ≤ b.eeBlock)
      (hsound : ∀ e ∈ es, e.Sound lo hi) : ExtentTree fs 0 lo hi eh es
  | node {d lo hi n : Nat} {eh : Memory} {children : Nat → List Ext4Extent}
      (hmagic : ehMagic eh = ext4ExtMagic) (hdepth : ehDepth eh = d + 1) (hcount : ehEntries eh = n)
      (hfirst : ∀ i < n, lo ≤ eiBlock eh i)
      (hkeys : ∀ i, i + 1 < n → eiBlock eh i < eiBlock eh (i + 1))
      (hlast : ∀ i < n, eiBlock eh i ≤ hi)
      (hchild : ∀ i < n, ExtentTree fs d (eiBlock eh i) (childEnd eh n hi i)
        (fs.getCache (eiLeafHi eh i * 2 ^ 32 + eiLeafLo eh i)) (children i)) :
      ExtentTree fs (d + 1) lo hi eh ((List.range n).flatMap children)

variable {fs : Ext4Fs} {d lo hi b : Nat} {eh : Memory} {es : List Ext4Extent}

/-! ## What a subtree holds -/

/-- The keys of a node increase. -/
theorem eiBlock_mono {n i j : Nat} (hkeys : ∀ i, i + 1 < n → eiBlock eh i < eiBlock eh (i + 1))
    (hij : i ≤ j) (hj : j < n) : eiBlock eh i ≤ eiBlock eh j := by
  induction j, hij using Nat.le_induction with
  | base => exact Nat.le_refl _
  | succ j _ ih => exact (ih (Nat.lt_of_succ_lt hj)).trans (Nat.le_of_lt (hkeys j hj))

/-- The children of a node lie one behind the other. -/
theorem childEnd_le {n i j : Nat} (hkeys : ∀ i, i + 1 < n → eiBlock eh i < eiBlock eh (i + 1))
    (hij : i < j) (hj : j < n) : childEnd eh n hi i ≤ eiBlock eh j := by
  rw [childEnd, if_pos (Nat.lt_of_le_of_lt hij hj)]
  exact eiBlock_mono hkeys hij hj

/-- The extents of a tree lie in its range. -/
theorem ExtentTree.sound (h : ExtentTree fs d lo hi eh es) : ∀ e ∈ es, e.Sound lo hi := by
  induction h with
  | leaf _ _ _ _ _ hsound => exact hsound
  | @node d lo hi n eh children _ _ _ hfirst hkeys hlast _ ih =>
    intro e he
    obtain ⟨i, hi', he⟩ := List.mem_flatMap.mp he
    have hi := List.mem_range.mp hi'
    obtain ⟨hpos, hlo, hhi, hstart⟩ := ih i hi e he
    refine ⟨hpos, (hfirst i hi).trans hlo, hhi.trans ?_, hstart⟩
    rw [childEnd]
    split_ifs with hnext
    · exact hlast _ hnext
    · exact Nat.le_refl _

/-- The search ends at the leaf that holds the extent of a block, if there is one. -/
theorem ExtentTree.findLeaf (h : ExtentTree fs d lo hi eh es) (b : Nat) {fuel : Nat}
    (hfuel : d < fuel) :
    (ext4FindLeaf fs b fuel eh = some none ∧ ∀ e ∈ es, ¬e.Covers b) ∨
      ∃ leaf lo' hi' es', ext4FindLeaf fs b fuel eh = some (some leaf) ∧
        ExtentTree fs 0 lo' hi' leaf es' ∧ ∀ e, e.Covers b → (e ∈ es ↔ e ∈ es') := by
  induction h generalizing fuel with
  | @leaf lo hi eh es hmagic hdepth hcount hentry hsorted hsound =>
    obtain ⟨fuel, rfl⟩ := Nat.exists_eq_add_one.mpr hfuel
    have hnext : leafNext eh b = none := by
      rw [leafNext, if_neg (not_not.mpr hmagic), if_pos hdepth]
    refine Or.inr ⟨eh, lo, hi, es, ?_, .leaf hmagic hdepth hcount hentry hsorted hsound,
      fun _ _ => Iff.rfl⟩
    rw [ext4FindLeaf, hnext, leafResult, if_neg (not_not.mpr hmagic), if_pos hdepth]
  | @node d lo hi n eh children hmagic hdepth hcount hfirst hkeys hlast hchild ih =>
    cases fuel with
    | zero => exact absurd hfuel (Nat.not_lt_zero _)
    | succ fuel =>
      have hdepth' : ehDepth eh ≠ 0 := by omega
      obtain ⟨-, hle, hbelow, hstop⟩ := entryLoop_spec (eiBlock eh) b n 0
      rw [Nat.zero_add] at hle hstop
      -- what is in child `j`, with the keys around it
      have hin : ∀ j < n, ∀ e ∈ children j, eiBlock eh j ≤ e.eeBlock ∧
          e.eeBlock + e.blocks ≤ childEnd eh n hi j := fun j hj e he =>
        ⟨((hchild j hj).sound e he).lo_le, ((hchild j hj).sound e he).le_hi⟩
      by_cases hzero : entryLoop (eiBlock eh) b n 0 = 0
      · refine Or.inl ⟨?_, fun e he hcov => ?_⟩
        · have hnext : leafNext eh b = none := by
            rw [leafNext, if_neg (not_not.mpr hmagic), if_neg hdepth', hcount]
            dsimp only
            rw [if_pos hzero]
          rw [ext4FindLeaf, hnext, leafResult, if_neg (not_not.mpr hmagic), if_neg hdepth']
        · -- the block lies in front of the first key
          obtain ⟨j, hj, he⟩ := List.mem_flatMap.mp he
          have hj' := List.mem_range.mp hj
          have hfront := hstop (by omega)
          rw [hzero] at hfront
          have hkey := eiBlock_mono hkeys (Nat.zero_le j) hj'
          have hblock := (hin j hj' e he).1
          have hcov' := hcov.1
          omega
      · have hi' : entryLoop (eiBlock eh) b n 0 - 1 < n := by omega
        have hnext : leafNext eh b = some
            (eiLeafHi eh (entryLoop (eiBlock eh) b n 0 - 1) * 2 ^ 32 +
              eiLeafLo eh (entryLoop (eiBlock eh) b n 0 - 1)) := by
          rw [leafNext, if_neg (not_not.mpr hmagic), if_neg hdepth', hcount]
          dsimp only
          rw [if_neg hzero]
        -- only the child of the last key that is not too large covers the block
        have honly : ∀ e, e.Covers b → (e ∈ (List.range n).flatMap children ↔
            e ∈ children (entryLoop (eiBlock eh) b n 0 - 1)) := by
          intro e hcov
          refine ⟨fun he => ?_, fun he =>
            List.mem_flatMap.mpr ⟨_, List.mem_range.mpr hi', he⟩⟩
          obtain ⟨j, hj, he⟩ := List.mem_flatMap.mp he
          have hj' := List.mem_range.mp hj
          obtain ⟨hkey, hend⟩ := hin j hj' e he
          obtain ⟨hcov, hcov'⟩ := hcov
          have hjle : j < entryLoop (eiBlock eh) b n 0 := by
            by_contra hge
            have hfront := hstop (by omega)
            have hmono := eiBlock_mono hkeys (Nat.le_of_not_lt hge) hj'
            omega
          have hjge : ¬j < entryLoop (eiBlock eh) b n 0 - 1 := by
            intro hlt
            have hchildEnd : childEnd eh n hi j ≤
                eiBlock eh (entryLoop (eiBlock eh) b n 0 - 1) := childEnd_le hkeys hlt hi'
            have hlow := hbelow (entryLoop (eiBlock eh) b n 0 - 1) (Nat.zero_le _) (by omega)
            omega
          rwa [show j = entryLoop (eiBlock eh) b n 0 - 1 by omega] at he
        rw [ext4FindLeaf, hnext]
        obtain ⟨hnone, hcov⟩ | ⟨leaf, lo', hi'', es', hleaf, htree, hiff⟩ :=
          ih _ hi' (Nat.lt_of_succ_lt_succ hfuel)
        · exact Or.inl ⟨hnone, fun e he hc => hcov e ((honly e hc).mp he) hc⟩
        · exact Or.inr ⟨leaf, lo', hi'', es', hleaf, htree,
            fun e hc => (honly e hc).trans (hiff e hc)⟩

/-! ## What a leaf holds -/

/-- The sorted extents of a leaf. -/
theorem ExtentTree.leaf_inv (h : ExtentTree fs 0 lo hi eh es) :
    ehEntries eh = es.length ∧ (∀ i (h : i < es.length), es[i] = extentAt eh i) ∧
      es.Pairwise fun a b => a.eeBlock + a.blocks ≤ b.eeBlock := by
  cases h with
  | leaf _ _ hcount hentry hsorted _ => exact ⟨hcount, hentry, hsorted⟩

/-- What is found in a leaf is the last extent that begins at the block or in front of it. -/
theorem ExtentTree.bmapLeaf_eq (h : ExtentTree fs 0 lo hi eh es) (b nblocks : Nat) :
    bmapLeaf eh b nblocks = (0, nblocks) ∨ ∃ e ∈ es, e.eeBlock ≤ b ∧ b - e.eeBlock < e.eeLen ∧
      bmapLeaf eh b nblocks = (e.start + (b - e.eeBlock), e.eeLen - (b - e.eeBlock)) := by
  obtain ⟨hcount, hentry, -⟩ := h.leaf_inv
  obtain ⟨-, hle, hbelow, -⟩ := entryLoop_spec (fun i => (extentAt eh i).eeBlock) b es.length 0
  rw [bmapLeaf, hcount]
  dsimp only
  split_ifs with hzero hlen
  · exact Or.inl rfl
  · exact Or.inl rfl
  · have hi' : entryLoop (fun i => (extentAt eh i).eeBlock) b es.length 0 - 1 < es.length := by omega
    refine Or.inr ⟨_, List.getElem_mem hi', ?_⟩
    rw [hentry _ hi']
    exact ⟨hbelow _ (Nat.zero_le _) (by omega), Nat.lt_of_not_le hlen, rfl⟩

/-- A written extent that covers the block is found. -/
theorem ExtentTree.bmapLeaf_written (h : ExtentTree fs 0 lo hi eh es) {e : Ext4Extent} (he : e ∈ es)
    (hcov : e.Covers b) (hw : e.Written) (nblocks : Nat) :
    bmapLeaf eh b nblocks = (e.start + (b - e.eeBlock), e.eeLen - (b - e.eeBlock)) := by
  obtain ⟨hcount, hentry, hsorted⟩ := h.leaf_inv
  obtain ⟨k, hk, rfl⟩ := List.getElem_of_mem he
  have hkey := fun i (hi : i < es.length) => congrArg Ext4Extent.eeBlock (hentry i hi)
  obtain ⟨hlo, hend⟩ := hcov
  have hblocks : es[k].blocks = es[k].eeLen := if_pos hw
  obtain ⟨-, hle, hbelow, hstop⟩ := entryLoop_spec (fun i => (extentAt eh i).eeBlock) b es.length 0
  rw [Nat.zero_add] at hle hstop
  -- the loop stops right behind it
  have hloop : entryLoop (fun i => (extentAt eh i).eeBlock) b es.length 0 = k + 1 := by
    refine Nat.le_antisymm (Nat.le_of_not_lt fun hlt => ?_) (Nat.lt_of_not_le fun hge => ?_)
    · have hin : k + 1 < es.length := by omega
      have hnext := List.pairwise_iff_getElem.mp hsorted k (k + 1) hk hin (Nat.lt_succ_self k)
      have hlow := hbelow (k + 1) (Nat.zero_le _) hlt
      rw [hkey _ hin] at hnext
      omega
    · have hfront := hstop (by omega)
      obtain heq | hlt := Nat.eq_or_lt_of_le hge
      · rw [hkey k hk, ← heq] at hlo
        omega
      · have hprev := List.pairwise_iff_getElem.mp hsorted _ k (by omega) hk hlt
        rw [hkey _ (by omega)] at hprev
        omega
  have hoff : b - es[k].eeBlock < es[k].eeLen := by omega
  rw [bmapLeaf, hcount, hloop, if_neg (Nat.succ_ne_zero k), Nat.add_sub_cancel, ← hentry k hk,
    if_neg (Nat.not_le.mpr hoff)]
  rfl

/-! ## The extent that is reported -/

/-- The number of sectors of a block. -/
def Ext4Fs.blockSectors (fs : Ext4Fs) : Nat := 2 ^ (fs.blockShift - fs.sectorShift)

/-- What is asked of the extent that is reported for a sector: it has sectors. Where a written
extent covers the block, it leads to the block's place on the disk and does not go past that extent;
elsewhere it is an extent of zeros that does not go past the start of the next written one. -/
def MapsSector (fs : Ext4Fs) (es : List Ext4Extent) (lstart : Nat) (r : Extent) : Prop :=
  0 < r.len ∧
    ((∃ e ∈ es, e.Written ∧ e.Covers (lstart / fs.blockSectors) ∧
        r.pstart = (e.start + (lstart / fs.blockSectors - e.eeBlock)) * fs.blockSectors +
          lstart % fs.blockSectors ∧
        lstart + r.len ≤ (e.eeBlock + e.eeLen) * fs.blockSectors) ∨
      (∀ e ∈ es, e.Written → ¬e.Covers (lstart / fs.blockSectors)) ∧ r.pstart = extentZero ∧
        ∀ e ∈ es, e.Written → lstart / fs.blockSectors < e.eeBlock →
          lstart + r.len ≤ e.eeBlock * fs.blockSectors)

theorem Ext4Fs.blockSectors_le (fs : Ext4Fs) : fs.blockSectors ≤ 2 ^ 7 := by
  have hge := fs.sector_ge
  have hle := fs.block_le
  exact Nat.pow_le_pow_right (by decide) (by omega)

theorem Ext4Fs.blockSectors_pos (fs : Ext4Fs) : 0 < fs.blockSectors := Nat.two_pow_pos _

/-- What becomes of a block and a count of blocks. -/
theorem ext2NextExtent_eq {fuel lstart block nblocks : Nat}
    (h : bmapExtent fs eh fuel (lstart / fs.blockSectors) 0 = some (block, nblocks))
    (hblock : block < 2 ^ 49) (hcount : nblocks < 2 ^ 16) :
    ext2NextExtent fs eh fuel lstart = some
      { pstart := if block = 0 then extentZero
          else block * fs.blockSectors + lstart % fs.blockSectors
        lstart
        len := u32 (nblocks * fs.blockSectors + 2 ^ 32 - lstart % fs.blockSectors) } := by
  have hmax := fs.blockSectors_le
  have hmask : lstart &&& (2 ^ (fs.blockShift - fs.sectorShift) - 1) = lstart % fs.blockSectors :=
    Nat.and_two_pow_sub_one_eq_mod _ _
  have hcount' : nblocks * fs.blockSectors < 2 ^ 32 :=
    (Nat.mul_le_mul_left nblocks hmax).trans_lt (by omega)
  have hblock' : block * fs.blockSectors < 2 ^ 64 :=
    (Nat.mul_le_mul_left block hmax).trans_lt (by omega)
  have hor : block * fs.blockSectors ||| lstart % fs.blockSectors =
      block * fs.blockSectors + lstart % fs.blockSectors := by
    rw [Nat.mul_comm]
    exact (Nat.two_pow_add_eq_or_of_lt (Nat.mod_lt _ fs.blockSectors_pos) block).symm
  rw [ext2NextExtent]
  dsimp only
  rw [hmask, ← Ext4Fs.blockSectors, h, Option.map_some]
  dsimp only
  rw [u32_of_lt hcount', u64_of_lt hblock', hor]

/-- The fields of an extent have their bytes. -/
theorem ExtentTree.leaf_lt (h : ExtentTree fs 0 lo hi eh es) {e : Ext4Extent} (he : e ∈ es) :
    e.start < 2 ^ 48 ∧ e.eeLen < 2 ^ 16 := by
  obtain ⟨-, hentry, -⟩ := h.leaf_inv
  obtain ⟨k, hk, rfl⟩ := List.getElem_of_mem he
  have hhi : (extentAt eh k).eeStartHi < 2 ^ 16 := memLe_lt _ _ _
  have hlo : (extentAt eh k).eeStartLo < 2 ^ 32 := memLe_lt _ _ _
  have hlen : (extentAt eh k).eeLen < 2 ^ 16 := memLe_lt _ _ _
  rw [hentry k hk, Ext4Extent.start]
  exact ⟨by omega, hlen⟩

/-- A block that a written extent covers. -/
theorem ExtentTree.bmapExtent_written (h : ExtentTree fs d lo hi eh es) {fuel : Nat}
    (hfuel : d < fuel) (hb : b < 2 ^ 32) {e : Ext4Extent} (he : e ∈ es) (hw : e.Written)
    (hcov : e.Covers b) (nblocks : Nat) :
    bmapExtent fs eh fuel b nblocks =
        some (e.start + (b - e.eeBlock), e.eeLen - (b - e.eeBlock)) ∧
      e.start < 2 ^ 48 ∧ e.eeLen < 2 ^ 16 := by
  obtain ⟨-, hnot⟩ | ⟨leaf, lo', hi', es', hleaf, htree, hiff⟩ := h.findLeaf b hfuel
  · exact absurd hcov (hnot e he)
  · have he' := (hiff e hcov).mp he
    rw [bmapExtent, u32_of_lt hb, hleaf, Option.map_some]
    dsimp only
    rw [htree.bmapLeaf_written he' hcov hw]
    exact ⟨rfl, htree.leaf_lt he'⟩

/-- Elsewhere the search leaves the count alone, or takes an extent that begins in front of the
block for its own. -/
theorem ExtentTree.bmapExtent_cases (h : ExtentTree fs d lo hi eh es) {fuel : Nat}
    (hfuel : d < fuel) (hb : b < 2 ^ 32) (nblocks : Nat) :
    bmapExtent fs eh fuel b nblocks = some (0, nblocks) ∨
      ∃ block n, bmapExtent fs eh fuel b nblocks = some (block, n) ∧ 0 < block ∧ block < 2 ^ 49 ∧
        n < 2 ^ 16 := by
  rw [bmapExtent, u32_of_lt hb]
  obtain ⟨hnone, -⟩ | ⟨leaf, lo', hi', es', hleaf, htree, -⟩ := h.findLeaf b hfuel
  · rw [hnone]
    exact Or.inl rfl
  · rw [hleaf, Option.map_some]
    dsimp only
    obtain heq | ⟨e, he, hle, hoff, heq⟩ := htree.bmapLeaf_eq b nblocks
    · exact Or.inl (congrArg some heq)
    · have hpos := (htree.sound e he).start_pos
      obtain ⟨hstart, hlen⟩ := htree.leaf_lt he
      exact Or.inr ⟨_, _, congrArg some heq, by omega, by omega, by omega⟩

/-- A sector of a written extent is mapped as it should be. At the first sector of a block that no
written extent covers, the length is zero, or the sector is taken for one of an unwritten extent. -/
theorem ext2_next_extent_iff (fs : Ext4Fs) (iExtentHdr : Memory) (d hi : Nat)
    (es : List Ext4Extent) (htree : ExtentTree fs d 0 hi iExtentHdr es) (fuel : Nat)
    (hfuel : d < fuel) (lstart : Nat) (hlstart : lstart < 2 ^ 32) :
    ∃ r, ext2NextExtent fs iExtentHdr fuel lstart = some r ∧
      ((∃ e ∈ es, e.Written ∧ e.Covers (lstart / fs.blockSectors)) → MapsSector fs es lstart r) ∧
      (fs.blockSectors ∣ lstart → (MapsSector fs es lstart r ↔
        ∃ e ∈ es, e.Written ∧ e.Covers (lstart / fs.blockSectors))) := by
  have hpos := fs.blockSectors_pos
  have hmod := Nat.mod_lt lstart hpos
  have hb : lstart / fs.blockSectors < 2 ^ 32 := (Nat.div_le_self _ _).trans_lt hlstart
  by_cases hwritten : ∃ e ∈ es, e.Written ∧ e.Covers (lstart / fs.blockSectors)
  · obtain ⟨e, he, hw, hcov⟩ := hwritten
    obtain ⟨hbmap, hstart, hlen⟩ := htree.bmapExtent_written hfuel hb he hw hcov 0
    have hblocks : e.blocks = e.eeLen := if_pos hw
    obtain ⟨hlo, hend⟩ := id hcov
    have hmax : e.eeLen ≤ extInitMaxLen := hw
    rw [extInitMaxLen] at hmax
    have hne : e.start + (lstart / fs.blockSectors - e.eeBlock) ≠ 0 := by
      have hstart' := (htree.sound e he).start_pos
      omega
    have hmaps : MapsSector fs es lstart
        { pstart := (e.start + (lstart / fs.blockSectors - e.eeBlock)) * fs.blockSectors +
            lstart % fs.blockSectors
          lstart
          len := u32 ((e.eeLen - (lstart / fs.blockSectors - e.eeBlock)) * fs.blockSectors + 2 ^ 32 -
            lstart % fs.blockSectors) } := by
      obtain ⟨n, hn⟩ : ∃ n, e.eeLen - (lstart / fs.blockSectors - e.eeBlock) = n + 1 :=
        Nat.exists_eq_add_one.mpr (by omega)
      have hsector := Nat.div_add_mod lstart fs.blockSectors
      have hlast : (n + 1) * fs.blockSectors = n * fs.blockSectors + fs.blockSectors :=
        Nat.add_one_mul n _
      have hfit : (n + 1) * fs.blockSectors ≤ 2 ^ 15 * 2 ^ 7 :=
        Nat.mul_le_mul (by omega) fs.blockSectors_le
      have hlen' : u32 ((n + 1) * fs.blockSectors + 2 ^ 32 - lstart % fs.blockSectors) =
          (n + 1) * fs.blockSectors - lstart % fs.blockSectors := by
        rw [u32]
        omega
      have hbehind : e.eeBlock + e.eeLen = lstart / fs.blockSectors + (n + 1) := by omega
      rw [hn, hlen']
      refine ⟨by dsimp only; omega, Or.inl ⟨e, he, hw, hcov, rfl, ?_⟩⟩
      have hsum : (lstart / fs.blockSectors + (n + 1)) * fs.blockSectors =
          fs.blockSectors * (lstart / fs.blockSectors) + (n + 1) * fs.blockSectors := by
        rw [Nat.add_mul, Nat.mul_comm]
      rw [hbehind, hsum]
      dsimp only
      omega
    refine ⟨_, ext2NextExtent_eq hbmap (by omega) (by omega), ?_⟩
    rw [if_neg hne]
    exact ⟨fun _ => hmaps, fun _ => ⟨fun _ => ⟨e, he, hw, hcov⟩, fun _ => hmaps⟩⟩
  · have hgap : ∀ r, ¬(0 < r.len ∧ r.pstart = extentZero) → ¬MapsSector fs es lstart r := by
      rintro r hr ⟨hlen, ⟨e, he, hw, hcov, -⟩ | ⟨-, hzero, -⟩⟩
      · exact hwritten ⟨e, he, hw, hcov⟩
      · exact hr ⟨hlen, hzero⟩
    obtain hbmap | ⟨block, n, hbmap, hblock, hblock', hn⟩ := htree.bmapExtent_cases hfuel hb 0
    · refine ⟨_, ext2NextExtent_eq hbmap (by decide) (by decide), fun h => absurd h hwritten,
        fun hstart => ⟨fun h => absurd h (hgap _ ?_), fun h => absurd h hwritten⟩⟩
      rintro ⟨hlen, -⟩
      rw [Nat.mod_eq_zero_of_dvd hstart, Nat.zero_mul] at hlen
      exact Nat.lt_irrefl 0 hlen
    · refine ⟨_, ext2NextExtent_eq hbmap hblock' hn, fun h => absurd h hwritten,
        fun _ => ⟨fun h => absurd h (hgap _ ?_), fun h => absurd h hwritten⟩⟩
      rintro ⟨-, hzero⟩
      have hfit : block * fs.blockSectors ≤ 2 ^ 49 * 2 ^ 7 :=
        Nat.mul_le_mul (Nat.le_of_lt hblock') fs.blockSectors_le
      have hx := fs.blockSectors_le
      dsimp only at hzero
      rw [if_neg hblock.ne', extentZero] at hzero
      omega

/-! ## Examples -/

/-- A leaf with an extent for block 0 and one for block 5. -/
def gapLeaf : Memory := fun i =>
  [0x0a, 0xf3, 2, 0, 4, 0, 0, 0, 0, 0, 0, 0,
    0, 0, 0, 0, 1, 0, 0, 0, 100, 0, 0, 0,
    5, 0, 0, 0, 1, 0, 0, 0, 200, 0, 0, 0].getD i 0

def gapExtents : List Ext4Extent := [⟨0, 1, 0, 100⟩, ⟨5, 1, 0, 200⟩]

theorem gapLeaf_tree : ExtentTree loopFs 0 0 6 gapLeaf gapExtents := by
  refine .leaf (by decide) (by decide) (by decide) (by decide) (by decide) fun e he => ?_
  have he' : e = ⟨0, 1, 0, 100⟩ ∨ e = ⟨5, 1, 0, 200⟩ := by simpa [gapExtents] using he
  obtain rfl | rfl := he' <;> exact ⟨by decide, by decide, by decide, by decide⟩

/-- Block 5 of this file. -/
theorem ext2_next_extent_iff_gap : ∃ r, ext2NextExtent loopFs gapLeaf 1 40 = some r ∧
    MapsSector loopFs gapExtents 40 r := by
  obtain ⟨r, hr, hmaps, -⟩ := ext2_next_extent_iff loopFs gapLeaf 0 6 gapExtents gapLeaf_tree 1
    (by decide) 40 (by decide)
  exact ⟨r, hr, hmaps ⟨⟨5, 1, 0, 200⟩, by decide, by decide, by decide, by decide⟩⟩

/-- Behind block 0 of this file an extent without sectors is reported. -/
theorem ext2_next_extent_empty : ¬∀ (fs : Ext4Fs) (iExtentHdr : Memory) (d hi : Nat)
    (es : List Ext4Extent), ExtentTree fs d 0 hi iExtentHdr es → ∀ fuel, d < fuel →
      ∀ lstart < 2 ^ 32, ∃ r, ext2NextExtent fs iExtentHdr fuel lstart = some r ∧
        MapsSector fs es lstart r := by
  intro h
  obtain ⟨r, hr, hmaps⟩ := h loopFs gapLeaf 0 6 gapExtents gapLeaf_tree 1 (by decide) 8 (by decide)
  have hlen : (ext2NextExtent loopFs gapLeaf 1 8).map (fun r => r.len) = some 0 := by
    decide +kernel
  rw [hr] at hlen
  have hzero : r.len = 0 := Option.some.inj hlen
  exact absurd hmaps.1 (hzero ▸ Nat.lt_irrefl 0)

end Liigboot.Fs.Ext2
