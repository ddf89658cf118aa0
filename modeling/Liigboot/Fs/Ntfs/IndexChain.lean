import Liigboot.Fs.Ntfs.Directory

/-!
# Directories whose nodes are a chain

For each layout there is a directory with a chain of nodes: each node has no entries but the last
one, whose child is the next node. An entry may stand in any cluster of the last node of the chain,
or wherever no block in use starts.
-/

namespace Liigboot.Fs.Ntfs

/-! ## Nodes with one entry -/

/-- The last entry of a node. -/
def lastBytes : Option Nat → List UInt8
  | none => List.replicate 8 0 ++ [16, 0, 0, 0, 2, 0, 0, 0]
  | some vcn => List.replicate 8 0 ++ [24, 0, 0, 0, 3, 0, 0, 0] ++ leBytes vcn 8

/-- An entry with the POSIX name `a`. -/
def namedEntry : IndexEntry := ⟨5, 0, [0x61], none⟩

/-- The entry, and the last one. -/
def namedBytes : List UInt8 :=
  [5, 0, 0, 0, 0, 0, 0, 0, 88, 0, 68, 0, 0, 0, 0, 0] ++ List.replicate 64 0 ++ [1, 0, 0x61, 0] ++
    List.replicate 4 0 ++ (List.replicate 8 0 ++ [16, 0, 0, 0, 2, 0, 0, 0])

/-- The front of an index block without fixups, with `len` bytes of entries at `first`. -/
def blockHead (first len : Nat) : List UInt8 :=
  [0x49, 0x4E, 0x44, 0x58, 40, 0, 1, 0] ++ List.replicate 16 0 ++ leBytes (first - 24) 4 ++
    leBytes (first - 24 + len) 4 ++ List.replicate 16 0

section

variable {nrec : List UInt8} {first len limit ie : Nat} {child : Option Nat}

@[simp] theorem length_blockHead (first len : Nat) : (blockHead first len).length = 48 := by
  simp [blockHead]

/-- The fields of the front of an index block. -/
theorem blockHead_fields (h : HoldsAt nrec 0 (blockHead first len)) (hlen : first + len < 2 ^ 32) :
    magic nrec = magicIndx ∧ usaOfs nrec = 40 ∧ usaCount nrec = 1 ∧
      readLe nrec 24 4 = first - 24 ∧ indexLimit nrec 24 = 24 + (first - 24 + len) := by
  have hread : ∀ off n, off + n ≤ 48 → readLe nrec off n = readLe (blockHead first len) off n := by
    intro off n hle
    have hle' : off + n ≤ (blockHead first len).length := by rwa [length_blockHead]
    have hfield := h.readLe hle'
    rwa [Nat.zero_add] at hfield
  have hfirst : readLe (blockHead first len) 24 4 = leNat (leBytes (first - 24) 4) := rfl
  have hlimit : readLe (blockHead first len) 28 4 = leNat (leBytes (first - 24 + len) 4) := rfl
  have hmagic : readLe (blockHead first len) 0 4 = leNat [0x49, 0x4E, 0x44, 0x58] := rfl
  rw [leNat_leBytes] at hfirst hlimit
  refine ⟨?_, hread 4 2 (by decide), hread 6 2 (by decide), ?_, ?_⟩
  · rw [magic, hread 0 4 (by decide), hmagic]
    decide
  · rw [hread 24 4 (by decide), hfirst]
    omega
  · rw [indexLimit, hread 28 4 (by decide), hlimit]
    omega

/-- A record with one number in its update sequence array has no fixups. -/
theorem applyFixups_none {sectorSize : Nat} (h : usaCount nrec = 1) :
    applyFixups sectorSize nrec = nrec := by
  have hbyte : ∀ i, fixedByte sectorSize nrec (usaCount nrec - 1) i = nrec[i]? := by
    intro i
    rw [h, fixedByte, if_neg (fun hlt => Nat.not_lt_zero _ hlt.1)]
  apply List.ext_getElem
  · rw [applyFixups, List.length_map, List.length_range]
  · intro i _ hi
    simp only [applyFixups, List.getElem_map, List.getElem_range, hbyte,
      List.getElem?_eq_getElem hi, Option.getD_some]

/-- A record without fixups is left as it is. -/
theorem validFixups_none {sectorSize : Nat} (hofs : usaOfs nrec = 40) (hcount : usaCount nrec = 1)
    (hlen : 42 ≤ nrec.length) (hsector : 44 ≤ sectorSize) : ValidFixups sectorSize nrec := by
  constructor
  · rw [hcount]
  · omega
  · omega
  · rw [hcount, Nat.sub_self, Nat.zero_mul]
    exact Nat.zero_le _
  · intro j hj
    rw [hcount] at hj
    exact absurd hj (Nat.not_lt_zero j)

@[simp] theorem length_lastBytes (child : Option Nat) :
    (lastBytes child).length = if child.isSome then 24 else 16 := by
  cases child with
  | none => rfl
  | some vcn => simp [lastBytes]

/-- The last entry. -/
theorem lastAt_lastBytes (h : HoldsAt nrec ie (lastBytes child))
    (hlimit : ie + (lastBytes child).length ≤ limit)
    (hchild : ∀ vcn, child = some vcn → vcn < 2 ^ 64) : LastAt nrec limit ie child := by
  have hread : ∀ off n, off + n ≤ (lastBytes child).length →
      readLe nrec (ie + off) n = readLe (lastBytes child) off n := fun off n hle => h.readLe hle
  cases child with
  | none =>
    have hflags : ieFlags nrec ie = 2 := hread 12 2 (by decide)
    have hlen : ieLen nrec ie = 16 := hread 8 2 (by decide)
    have hshort : (lastBytes none).length = 16 := rfl
    refine ⟨by omega, by omega, by rw [hflags]; decide, ?_⟩
    rw [childAt, hflags, if_neg (by decide)]
  | some vcn =>
    have hlong : (lastBytes (some vcn)).length = 24 := length_lastBytes (some vcn)
    have hflags : ieFlags nrec ie = 3 := hread 12 2 (by omega)
    have hlen : ieLen nrec ie = 24 := hread 8 2 (by omega)
    have hvcn : readLe nrec (ie + 16) 8 = leNat (leBytes vcn 8) := hread 16 8 (by omega)
    refine ⟨by omega, by omega, by rw [hflags]; decide, ?_⟩
    rw [childAt, hflags, if_pos (by decide), hlen]
    change some (readLe nrec (ie + 16) 8) = some vcn
    have hlt : vcn < 256 ^ 8 := hchild vcn rfl
    rw [hvcn, leNat_leBytes, Nat.mod_eq_of_lt hlt]

/-- The entry with the name. -/
theorem entriesAt_namedBytes (h : HoldsAt nrec ie namedBytes) (hlimit : ie + 104 ≤ limit) :
    EntriesAt nrec limit ie [namedEntry] none := by
  have hread : ∀ off n, off + n ≤ 104 → readLe nrec (ie + off) n = readLe namedBytes off n :=
    fun off n hle => h.readLe hle
  have hlen : ieLen nrec ie = 88 := hread 8 2 (by decide)
  have hlast : HoldsAt nrec (ie + 88) (lastBytes none) := HoldsAt.right h
  refine .entry ⟨by omega, ?_, ?_, hread 0 8 (by decide), hread 81 1 (by decide),
    hread 80 1 (by decide), ?_, ?_⟩ (.last ?_)
  · rw [hlen]
    decide
  · have hflags : ieFlags nrec ie = 0 := hread 12 2 (by decide)
    rw [hflags]
    rfl
  · intro i c hc
    have hi := (List.getElem?_eq_some_iff.mp hc).1
    obtain rfl : i = 0 := Nat.lt_one_iff.mp hi
    obtain rfl := Option.some.inj hc
    exact hread 82 2 (by decide)
  · have hflags : ieFlags nrec ie = 0 := hread 12 2 (by decide)
    unfold childAt
    rw [hflags]
    rfl
  · rw [hlen]
    refine lastAt_lastBytes hlast ?_ (fun vcn hvcn => nomatch hvcn)
    rw [length_lastBytes]
    exact hlimit

/-! ## Index blocks -/

/-- A block with the last entry only. -/
def plainBlock (child : Option Nat) : List UInt8 := blockHead 48 24 ++ lastBytes child

/-- What an index block needs, besides its node: the magic number, and no fixups. -/
structure Unfixed (nrec : List UInt8) : Prop where
  magic : magic nrec = magicIndx
  usaOfs : usaOfs nrec = 40
  usaCount : usaCount nrec = 1

/-- A block without names is an empty node. -/
theorem plainBlock_node (h : HoldsAt nrec 0 (plainBlock child)) (hlen : 72 ≤ nrec.length)
    (hchild : ∀ vcn, child = some vcn → vcn < 2 ^ 64) :
    Unfixed nrec ∧ NodeAt nrec 24 ⟨[], child⟩ := by
  obtain ⟨hmagic, hofs, hcount, hfirst, hlimit⟩ := blockHead_fields h.left (by decide)
  have hlast := h.right
  rw [length_blockHead, Nat.zero_add] at hlast
  refine ⟨⟨hmagic, hofs, hcount⟩, by omega, ?_⟩
  rw [hlimit, hfirst]
  refine .last (lastAt_lastBytes hlast ?_ hchild)
  rw [length_lastBytes]
  split <;> omega

/-- A block whose entry is the one with the name. -/
theorem namedBlock_node (h : HoldsAt nrec 0 (blockHead first 104))
    (hentry : HoldsAt nrec first namedBytes) (hfirst : 24 ≤ first)
    (hlen : first + 104 ≤ nrec.length) (hlt : first + 104 < 2 ^ 32) :
    Unfixed nrec ∧ NodeAt nrec 24 ⟨[namedEntry], none⟩ := by
  obtain ⟨hmagic, hofs, hcount, hentries, hlimit⟩ := blockHead_fields h hlt
  refine ⟨⟨hmagic, hofs, hcount⟩, by omega, ?_⟩
  have hplace : 24 + readLe nrec 24 4 = first := by omega
  rw [hlimit, hplace]
  exact entriesAt_namedBytes hentry (by omega)

end

/-! ## Disks of units -/

namespace Layout

/-- A cluster, or an index block when that is smaller. -/
def unit (l : Layout) : Nat := min l.fs.clustSize l.recordSize

/-- A disk with some bytes at the start of each unit, and some from its byte 256 on. -/
def unitDisk (l : Layout) (front back : Nat → List UInt8) : Disk := fun p =>
  if p % l.unit < 256 then (front (p / l.unit * l.unit)).getD (p % l.unit) 0
  else (back (p / l.unit * l.unit)).getD (p % l.unit - 256) 0

variable {l : Layout} {front back : Nat → List UInt8}

/-- The sizes are multiples of units. -/
theorem unit_facts (hl : l.WellFormed) :
    512 ≤ l.unit ∧ l.unit ∣ l.fs.clustSize ∧ l.unit ∣ l.recordSize := by
  have hclust := clustSize_ge hl
  have hsector := sectorSize_ge hl
  rcases hl.idxRecord with ⟨hlt, k, hk⟩ | ⟨hge, hsize, hless⟩
  · have hrecord : l.recordSize = 2 ^ k * l.fs.clustSize := by rw [recordSize, if_pos hlt, hk]
    have hunit : l.unit = l.fs.clustSize := by
      rw [unit, hrecord]
      exact Nat.min_eq_left (Nat.le_mul_of_pos_left _ (Nat.two_pow_pos k))
    rw [hunit, hrecord]
    exact ⟨hclust, Nat.dvd_refl _, Nat.dvd_mul_left _ _⟩
  · have hunit : l.unit = l.recordSize := Nat.min_eq_right hless.le
    have hrecord : l.recordSize = 2 ^ (256 - l.ntfs.clustPerIdxRecord.toNat) := by
      rw [recordSize, if_neg (UInt8.not_lt.mpr hge)]
    rw [hunit]
    refine ⟨hsector.trans hsize, ?_, Nat.dvd_refl _⟩
    rw [hrecord, FsInfo.clustSize] at hless ⊢
    exact Nat.pow_dvd_pow 2 ((Nat.pow_lt_pow_iff_right (by decide : 1 < 2)).mp hless).le

/-- The front of a unit. -/
theorem unitDisk_front (hl : l.WellFormed) (back : Nat → List UInt8) {a : Nat} (ha : l.unit ∣ a)
    (hlen : (front a).length ≤ 256) :
    HoldsAt (bytesAt (l.unitDisk front back) a l.unit) 0 (front a) := by
  obtain ⟨hunit, -, -⟩ := unit_facts hl
  intro i c hc
  have hi := (List.getElem?_eq_some_iff.mp hc).1
  obtain ⟨k, rfl⟩ := ha
  rw [Nat.zero_add, getElem?_bytesAt _ _ (by omega), unitDisk, Nat.mul_add_mod,
    Nat.mul_add_div (by omega), Nat.mod_eq_of_lt (by omega), Nat.div_eq_of_lt (by omega),
    Nat.add_zero, Nat.mul_comm k, if_pos (by omega), List.getD_eq_getElem?_getD, hc, Option.getD_some]

/-- The bytes of a unit from byte 256 on. -/
theorem unitDisk_back (hl : l.WellFormed) {a i : Nat} (ha : l.unit ∣ a) (hi : 256 + i < l.unit) :
    (bytesAt (l.unitDisk front back) a l.unit)[256 + i]? = some ((back a).getD i 0) := by
  obtain ⟨hunit, -, -⟩ := unit_facts hl
  obtain ⟨k, rfl⟩ := ha
  rw [getElem?_bytesAt _ _ hi, unitDisk, Nat.mul_add_mod, Nat.mul_add_div (by omega),
    Nat.mod_eq_of_lt hi, Nat.div_eq_of_lt hi, Nat.add_zero, Nat.mul_comm k, if_neg (by omega),
    Nat.add_sub_cancel_left]

/-- Bytes of one unit of the index are in one unit of the disk. -/
theorem pos_add (hl : l.WellFormed) {y i : Nat} (hy : l.unit ∣ y) (hi : i < l.unit) :
    l.pos (y + i) = l.pos y + i := by
  obtain ⟨-, ⟨m, hm⟩, -⟩ := unit_facts hl
  obtain ⟨k, rfl⟩ := hy
  have hpos : 0 < l.unit := by omega
  have hdiv : (l.unit * k + i) / l.fs.clustSize = l.unit * k / l.fs.clustSize := by
    rw [hm, ← Nat.div_div_eq_div_mul, ← Nat.div_div_eq_div_mul, Nat.mul_add_div hpos,
      Nat.div_eq_of_lt hi, Nat.add_zero, Nat.mul_div_cancel_left _ hpos]
  have hmod : (l.unit * k + i) % l.fs.clustSize = l.unit * k % l.fs.clustSize + i := by
    rw [hm, Nat.mul_mod_mul_left, Nat.mod_mul, Nat.mul_add_mod, Nat.mod_eq_of_lt hi,
      Nat.mul_add_div hpos, Nat.div_eq_of_lt hi, Nat.add_zero, Nat.add_comm]
  rw [pos, pos, hdiv, hmod, Nat.add_assoc]

theorem unit_dvd_pos (hl : l.WellFormed) {y : Nat} (hy : l.unit ∣ y) : l.unit ∣ l.pos y := by
  obtain ⟨-, hclust, -⟩ := unit_facts hl
  exact Nat.dvd_add (Nat.dvd_trans hclust (Nat.dvd_mul_left _ _))
    ((Nat.dvd_mod_iff hclust).mpr hy)

/-- The bytes of a block in a unit of it. -/
theorem record_holdsAt (hl : l.WellFormed) (disk : Disk) (b : Nat) {x : Nat} (hx : l.unit ∣ x)
    (hlen : x + l.unit ≤ l.recordSize) :
    HoldsAt (l.record disk b) x (bytesAt disk (l.pos (b * l.recordSize + x)) l.unit) := by
  obtain ⟨-, -, hrecord⟩ := unit_facts hl
  intro i c hc
  have hi := (List.getElem?_eq_some_iff.mp hc).1
  rw [length_bytesAt] at hi
  rw [getElem?_bytesAt _ _ hi, ← pos_add hl
    (Nat.dvd_add (Nat.dvd_trans hrecord (Nat.dvd_mul_left _ _)) hx) hi] at hc
  rw [record, List.getElem?_map, List.getElem?_range (by omega), Option.map_some, ← Nat.add_assoc]
  exact hc

/-- Different bytes of the index are in different places. -/
theorem pos_inj (hl : l.WellFormed) {y z : Nat} (hy : y < l.clusters.length * l.fs.clustSize)
    (hz : z < l.clusters.length * l.fs.clustSize) (h : l.pos y = l.pos z) : y = z := by
  have hpos : 0 < l.fs.clustSize := Nat.two_pow_pos _
  have hy' : y / l.fs.clustSize < l.clusters.length := (Nat.div_lt_iff_lt_mul hpos).mpr hy
  have hz' : z / l.fs.clustSize < l.clusters.length := (Nat.div_lt_iff_lt_mul hpos).mpr hz
  have hmodY := Nat.mod_lt y hpos
  have hmodZ := Nat.mod_lt z hpos
  have hdiv := congrArg (· / l.fs.clustSize) h
  have hmod := congrArg (· % l.fs.clustSize) h
  dsimp only [pos] at hdiv hmod
  rw [Nat.mul_add_mod', Nat.mul_add_mod', Nat.mod_mod, Nat.mod_mod] at hmod
  rw [Nat.mul_comm _ l.fs.clustSize, Nat.mul_comm _ l.fs.clustSize, Nat.mul_add_div hpos,
    Nat.mul_add_div hpos, Nat.div_eq_of_lt hmodY, Nat.div_eq_of_lt hmodZ, Nat.add_zero,
    Nat.add_zero, List.getD_eq_getElem?_getD, List.getD_eq_getElem?_getD,
    List.getElem?_eq_getElem hy', List.getElem?_eq_getElem hz', Option.getD_some,
    Option.getD_some] at hdiv
  have hget : l.clusters[y / l.fs.clustSize]? = l.clusters[z / l.fs.clustSize]? := by
    rw [List.getElem?_eq_getElem hy', List.getElem?_eq_getElem hz', hdiv]
  have hindex := (List.getElem?_inj hy' hl.nodup).mp hget
  rw [← Nat.div_add_mod y l.fs.clustSize, ← Nat.div_add_mod z l.fs.clustSize, hindex, hmod]

end Layout

/-! ## Chains -/

/-- A directory whose blocks are a chain. The last block has the entry with the name from byte
256 of one of its units on, or has no entry. -/
structure Plan where
  others : List Nat
  final : Nat
  hidden : Option Nat
  other : List UInt8

namespace Plan

section

variable (l : Layout) (p : Plan)

def blocks : List Nat := p.others ++ [p.final]

/-- The child of a block: the next one. -/
def child (b : Nat) : Option Nat :=
  (p.blocks[p.blocks.idxOf b + 1]?).map (· * l.vcnStep)

/-- The node in a block. -/
def node (b : Nat) : Node :=
  if b = p.final ∧ p.hidden.isSome then ⟨[namedEntry], none⟩ else ⟨[], p.child l b⟩

/-- The child of the root. -/
def first : Nat := (p.others.headD p.final) * l.vcnStep

def tree : Directory := ⟨⟨[], some (p.first l)⟩, p.node l⟩

/-- The front of a block. -/
def head (b : Nat) : List UInt8 :=
  match p.hidden with
  | some x => if b = p.final then blockHead (x + 256) 104 else plainBlock (p.child l b)
  | none => plainBlock (p.child l b)

/-- The front of a unit: of a block, or of no block. -/
def front (a : Nat) : List UInt8 :=
  match p.blocks.find? fun b => l.pos (b * l.recordSize) = a with
  | some b => p.head l b
  | none => p.other

/-- The rest of a unit. -/
def back (a : Nat) : List UInt8 :=
  match p.hidden with
  | some x => if a = l.pos (p.final * l.recordSize + x) then namedBytes else []
  | none => []

def disk : Disk := l.unitDisk (p.front l) (p.back l)

/-- The MFT record with the index root. -/
def rootBytes : List UInt8 :=
  List.replicate 20 0 ++ [24, 0, 0, 0] ++ List.replicate 16 0 ++
    ([16, 0, 0, 0, 40, 0, 0, 0] ++ List.replicate 8 0) ++ lastBytes (some (p.first l))

end

end Plan

/-- The attribute with the runs. -/
def Layout.pairsBytes (l : Layout) : List UInt8 :=
  List.replicate 4 0 ++ leBytes (64 + (encodeRuns l.runs).length + 1) 4 ++ [1] ++
    List.replicate 23 0 ++ [64, 0] ++ List.replicate 30 0 ++ (encodeRuns l.runs ++ [0])

namespace Plan

def volume (l : Layout) (p : Plan) : Volume where
  fs := l.fs
  disk := p.disk l
  mftRecordLookup := fun _ => some (p.rootBytes l)
  startBlk := fun _ => 0
  ntfsAttrLookup := fun type _ _ =>
    if type = atIndexAllocation then some (l.pairsBytes, 0) else some (p.rootBytes l, 0)

/-- The blocks of the plan are those in use. -/
structure Valid (l : Layout) (p : Plan) : Prop where
  nodup : p.blocks.Nodup
  used : ∀ b, l.used b = true ↔ b ∈ p.blocks
  hidden : ∀ x, p.hidden = some x → l.unit ∣ x ∧ x + l.unit ≤ l.recordSize ∧ x + 512 < 2 ^ 32
  other : p.other.length ≤ 256

variable {l : Layout} {p : Plan}

/-- The blocks of the plan are on the volume. -/
theorem pos_lt (hl : l.WellFormed) (hp : p.Valid l) {b x : Nat} (hb : b ∈ p.blocks)
    (hx : x < l.recordSize) : b * l.recordSize + x < l.clusters.length * l.fs.clustSize := by
  have hused := hl.used b ((hp.used b).mpr hb)
  rw [Nat.add_one_mul] at hused
  omega

/-- The front of a block of the plan. -/
theorem front_block (hl : l.WellFormed) (hp : p.Valid l) {b : Nat} (hb : b ∈ p.blocks) :
    p.front l (l.pos (b * l.recordSize)) = p.head l b := by
  have hrecord := Layout.recordSize_pos hl
  rw [front]
  cases hfind : p.blocks.find? fun b' => l.pos (b' * l.recordSize) = l.pos (b * l.recordSize) with
  | none => exact absurd (decide_eq_true rfl) (List.find?_eq_none.mp hfind b hb)
  | some b' =>
    have hb' := List.mem_of_find?_eq_some hfind
    have heq := List.find?_some hfind
    have hplace := Layout.pos_inj hl (pos_lt hl hp hb' hrecord) (pos_lt hl hp hb hrecord)
      (of_decide_eq_true heq)
    rw [Nat.add_zero, Nat.add_zero] at hplace
    rw [Nat.eq_of_mul_eq_mul_right hrecord hplace]

theorem length_head_le (p : Plan) (b : Nat) : (p.head l b).length ≤ 256 := by
  have hplain : ∀ child, (plainBlock child).length ≤ 256 := by
    intro child
    rw [plainBlock, List.length_append, length_blockHead, length_lastBytes]
    split <;> omega
  rw [head]
  split
  · split
    · rw [length_blockHead]
      omega
    · exact hplain _
  · exact hplain _

theorem length_front_le (hp : p.Valid l) (a : Nat) : (p.front l a).length ≤ 256 := by
  rw [front]
  split
  · exact length_head_le p _
  · exact hp.other

/-! ### The tree -/

theorem vcnStep_pos (hl : l.WellFormed) : 0 < l.vcnStep := by
  have hunit := (Layout.unit_facts hl).1
  have hclust : 0 < l.fs.clustSize := Nat.two_pow_pos _
  rw [Layout.unit] at hunit
  rw [Layout.vcnStep]
  split
  · exact Nat.div_pos (by assumption) hclust
  · exact Nat.div_pos (by omega) (by decide)

/-- The numbers of the blocks fit 64 bits. -/
theorem vcn_lt (hl : l.WellFormed) (hp : p.Valid l) {b : Nat} (hb : b ∈ p.blocks) :
    b * l.vcnStep < 2 ^ 64 := by
  have hrecord := Layout.recordSize_pos hl
  have hpos := pos_lt hl hp hb hrecord
  have hle : b * l.vcnStep ≤ b * l.recordSize := Nat.mul_le_mul_left b (Nat.div_le_self _ _)
  have hsize := hl.size
  omega

/-- A node has no children, or the next block. -/
theorem children_node (l : Layout) (p : Plan) (b : Nat) :
    (p.node l b).children = [] ∨
      ∃ c, p.blocks[p.blocks.idxOf b + 1]? = some c ∧ (p.node l b).children = [c * l.vcnStep] := by
  rw [node]
  split
  · exact Or.inl rfl
  · cases hnext : p.blocks[p.blocks.idxOf b + 1]? with
    | none =>
      rw [child, hnext]
      exact Or.inl rfl
    | some c =>
      rw [child, hnext]
      exact Or.inr ⟨c, rfl, rfl⟩

theorem getElem?_blocks_zero (p : Plan) : p.blocks[0]? = some (p.others.headD p.final) := by
  rw [blocks]
  cases p.others with
  | nil => rfl
  | cons a others => rfl

/-- Only the blocks of the plan are in the tree. -/
theorem mem_blocks (hl : l.WellFormed) {b : Nat} (h : (p.tree l).InTree l.vcnStep b) :
    b ∈ p.blocks := by
  have hstep := vcnStep_pos hl
  cases h with
  | root h =>
    have heq : b * l.vcnStep = p.others.headD p.final * l.vcnStep := List.mem_singleton.mp h
    rw [Nat.eq_of_mul_eq_mul_right hstep heq]
    exact List.mem_of_getElem? (getElem?_blocks_zero p)
  | @child a _ _ h =>
    rcases children_node l p a with hnil | ⟨c, hc, hchildren⟩
    · exact absurd (hnil ▸ h) List.not_mem_nil
    · have heq : b * l.vcnStep = c * l.vcnStep := List.mem_singleton.mp (hchildren ▸ h)
      rw [Nat.eq_of_mul_eq_mul_right hstep heq]
      exact List.mem_of_getElem? hc

/-- All blocks of the plan are in the tree. -/
theorem inTree_block (hp : p.Valid l) {i b : Nat} (h : p.blocks[i]? = some b) :
    (p.tree l).InTree l.vcnStep b := by
  induction i generalizing b with
  | zero =>
    obtain rfl := Option.some.inj ((getElem?_blocks_zero p).symm.trans h)
    exact .root (List.mem_singleton.mpr rfl)
  | succ i ih =>
    obtain ⟨hi, rfl⟩ := List.getElem?_eq_some_iff.mp h
    have hbefore : p.blocks[i]? = some p.blocks[i] := List.getElem?_eq_getElem (by omega)
    have hindex : p.blocks.idxOf p.blocks[i] = i := hp.nodup.idxOf_getElem i (by omega)
    refine .child (ih hbefore) ?_
    have hne : p.blocks[i] ≠ p.final := by
      intro heq
      have hlast : p.blocks[p.others.length]? = some p.final := by
        rw [blocks, List.getElem?_append_right (Nat.le_refl _), Nat.sub_self]
        rfl
      rw [← heq, ← hbefore] at hlast
      have hplace := (List.getElem?_inj (by omega) hp.nodup).mp hlast.symm
      have hlen : p.blocks.length = p.others.length + 1 := by
        rw [blocks, List.length_append, List.length_singleton]
      omega
    change _ ∈ (p.node l p.blocks[i]).children
    rw [node, if_neg fun hb => hne hb.1, child, hindex, h]
    exact List.mem_singleton.mpr rfl

/-! ### The directory on the volume -/

/-- The block with the number `b` as it is on the disk. -/
theorem record_block (hl : l.WellFormed) (hp : p.Valid l) {b : Nat} (hb : b ∈ p.blocks) :
    Unfixed (l.record (p.disk l) b) ∧ NodeAt (l.record (p.disk l) b) 24 (p.node l b) := by
  obtain ⟨hunit, -, hrecord⟩ := Layout.unit_facts hl
  have hle : l.unit ≤ l.recordSize := Nat.le_of_dvd (Layout.recordSize_pos hl) hrecord
  have hlen : (l.record (p.disk l) b).length = l.recordSize := by
    unfold Layout.record
    rw [List.length_map, List.length_range]
  have hunits := fun {x : Nat} hx hxlen =>
    @Layout.record_holdsAt l hl (p.disk l) b x hx hxlen
  have hdvd : ∀ {x}, l.unit ∣ x → l.unit ∣ l.pos (b * l.recordSize + x) := fun hx =>
    Layout.unit_dvd_pos hl (Nat.dvd_add (Nat.dvd_trans hrecord (Nat.dvd_mul_left _ _)) hx)
  have hfront := (hunits (Nat.dvd_zero l.unit) (by omega)).trans
    (Layout.unitDisk_front hl (p.back l) (hdvd (Nat.dvd_zero _)) (length_front_le hp _))
  rw [Nat.add_zero, Nat.add_zero, front_block hl hp hb] at hfront
  have hplain : HoldsAt (l.record (p.disk l) b) 0 (plainBlock (p.child l b)) →
      Unfixed (l.record (p.disk l) b) ∧ NodeAt (l.record (p.disk l) b) 24 ⟨[], p.child l b⟩ := by
    intro h
    refine plainBlock_node h (by omega) fun vcn hvcn => ?_
    obtain ⟨c, hc, rfl⟩ := Option.map_eq_some_iff.mp hvcn
    exact vcn_lt hl hp (List.mem_of_getElem? hc)
  rw [head] at hfront
  rw [node]
  cases hhidden : p.hidden with
  | none =>
    rw [hhidden] at hfront
    rw [if_neg (fun h => nomatch h.2)]
    exact hplain hfront
  | some x =>
    rw [hhidden] at hfront
    dsimp only at hfront
    by_cases hfinal : b = p.final
    · obtain ⟨hx, hxlen, hlt⟩ := hp.hidden x hhidden
      rw [if_pos hfinal] at hfront
      rw [if_pos ⟨hfinal, rfl⟩]
      refine namedBlock_node hfront ?_ (by omega) (by omega) (by omega)
      intro i c hc
      have hi : i < 104 := (List.getElem?_eq_some_iff.mp hc).1
      have hback : p.back l (l.pos (b * l.recordSize + x)) = namedBytes := by
        rw [back, hhidden, hfinal]
        exact if_pos rfl
      rw [Nat.add_assoc]
      refine hunits hx hxlen (256 + i) c ?_
      rw [disk, Layout.unitDisk_back hl (hdvd hx) (by omega), hback, List.getD_eq_getElem?_getD,
        hc, Option.getD_some]
    · rw [if_neg hfinal] at hfront
      rw [if_neg fun h => hfinal h.1]
      exact hplain hfront

/-- The root in the MFT record. -/
theorem rootBytes_node (hl : l.WellFormed) (hp : p.Valid l) :
    NodeAt (p.rootBytes l) (rootIndex (p.rootBytes l) 0) (p.tree l).root := by
  have hindex : rootIndex (p.rootBytes l) 0 = 40 := rfl
  have hfirst : readLe (p.rootBytes l) 40 4 = 16 := rfl
  have hlimit : indexLimit (p.rootBytes l) 40 = 80 := rfl
  have hlen : (p.rootBytes l).length = 80 := by simp [rootBytes]
  have hlast : HoldsAt (p.rootBytes l) 56 (lastBytes (some (p.first l))) := by
    have hself : HoldsAt (p.rootBytes l) 0 (p.rootBytes l) := by
      intro i c hc
      rwa [Nat.zero_add]
    exact hself.right
  have hlen' : 56 + (lastBytes (some (p.first l))).length = 80 := by rw [length_lastBytes]; rfl
  rw [hindex]
  refine ⟨by omega, ?_⟩
  rw [hlimit, hfirst]
  refine .last (lastAt_lastBytes hlast (Nat.le_of_eq hlen') fun vcn hvcn => ?_)
  obtain rfl := Option.some.inj hvcn
  exact vcn_lt hl hp (List.mem_of_getElem? (getElem?_blocks_zero p))

/-- The attribute with the runs. -/
theorem pairsBytes_allocation (hl : l.WellFormed) : AllocationAt l.pairsBytes 0 l.runs := by
  have hpairs := hl.pairs
  have hoffset : mappingPairsOffset l.pairsBytes 0 = 64 := rfl
  have hlen : attrLen l.pairsBytes 0 = leNat (leBytes (64 + (encodeRuns l.runs).length + 1) 4) :=
    rfl
  rw [leNat_leBytes, Nat.mod_eq_of_lt (by omega)] at hlen
  refine ⟨?_, ?_, by omega⟩
  · have hflag : nonResident l.pairsBytes 0 = 1 := rfl
    rw [hflag]
    decide
  · intro i c hc
    have hself : HoldsAt l.pairsBytes 0 l.pairsBytes := by
      intro i c hc
      rwa [Nat.zero_add]
    have hbyte := hself.right i c hc
    have hplace : 0 + mappingPairsOffset l.pairsBytes 0 + (0 + i) = 64 + i := by omega
    rw [pairsStream, hplace, List.getD_eq_getElem?_getD]
    exact congrArg (Option.getD · 0) hbyte

/-- The directory of a plan is on its volume. -/
theorem stored (hl : l.WellFormed) (hp : p.Valid l) (mftNo : Nat) :
    Stored l (p.volume l) mftNo (p.tree l) where
  fs := rfl
  root := ⟨p.rootBytes l, p.rootBytes l, 0, rfl, rfl, rootBytes_node hl hp, fun _ =>
    ⟨l.pairsBytes, 0, rfl, pairsBytes_allocation hl⟩⟩
  magic b hb := (record_block hl hp ((hp.used b).mp hb)).1.magic
  fixups b hb := by
    obtain ⟨hunit, -, hrecord⟩ := Layout.unit_facts hl
    have hle := Nat.le_of_dvd (Layout.recordSize_pos hl) hrecord
    have hunfixed := (record_block hl hp ((hp.used b).mp hb)).1
    have hsector := Layout.sectorSize_ge hl
    refine validFixups_none hunfixed.usaOfs hunfixed.usaCount ?_ (by omega)
    change 42 ≤ (l.record (p.disk l) b).length
    rw [Layout.record, List.length_map, List.length_range]
    omega
  node b hb := by
    obtain ⟨hunfixed, hnode⟩ := record_block hl hp ((hp.used b).mp hb)
    exact (applyFixups_none hunfixed.usaCount).symm ▸ hnode
  tree b := by
    rw [hp.used]
    constructor
    · intro hb
      obtain ⟨i, hi, rfl⟩ := List.getElem_of_mem hb
      exact inTree_block hp (List.getElem?_eq_getElem hi)
    · exact mem_blocks hl
  uniform := by
    refine ⟨fun e he => absurd he List.not_mem_nil, fun b _ e he => ?_⟩
    change e ∈ (p.node l b).entries at he
    change e.child.isSome = (p.node l b).last.isSome
    rw [node] at he ⊢
    split at he
    · rename_i hfinal
      rw [if_pos hfinal, List.mem_singleton.mp he]
      rfl
    · exact absurd he List.not_mem_nil
  children vcn h := ⟨_, List.mem_singleton.mp h⟩

end Plan

end Liigboot.Fs.Ntfs
