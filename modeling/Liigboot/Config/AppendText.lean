import Liigboot.Config.Getline
import Liigboot.Config.ParseConfig
import Liigboot.Fs.MangleName
import Liigboot.Lib.Writer

/-!
# The append text of a label

`AppendBuf` has the append text of the global section. A label starts with a copy of it in
`vk_append`, which its own `append` statement replaces, and `commit_vk` adds the `initrd` argument
and fills the field with zeros. The line reader has no limit, and nothing looks at the length. All
stores stay in their buffer exactly when each text fits when it is stored.
-/

namespace Liigboot.Config

open Liigboot.Fs (genericMangleName vfatMangleName)

/-! ## The source -/

/-- The `mangle_name` of a file system. -/
inductive Mangler
  | generic
  | vfat
  deriving DecidableEq, Repr

def Mangler.mangle : Mangler → List UInt8 → List UInt8
  | .generic => genericMangleName
  | .vfat => vfatMangleName

/-- `AppendBuf` is behind `VKernelBuf`, from which addresses are counted. -/
def appendBuf : Nat := vkSize

inductive Buffer
  | vkernel
  | append
  deriving DecidableEq, Repr

def Buffer.lo : Buffer → Nat
  | .vkernel => 0
  | .append => appendBuf

def Buffer.hi : Buffer → Nat
  | .vkernel => vkSize
  | .append => appendBuf + (maxCmdLen + 1)

/-- What a routine does to a buffer: its stores, the append lengths that it sets, and those that it
takes from `max_cmd_len+1` to fill the rest with zeros. -/
structure Effect where
  buffer : Buffer
  stores : List (Nat × UInt8)
  lengths : List UInt16
  padded : List UInt16

/-- The variables of `parse_config`, and what its routines did so far. -/
structure Parse where
  seg : Nat → UInt8
  /-- `VKernel` -/
  vkernel : Bool
  /-- `AppendLen` -/
  appendLen : UInt16
  /-- `InitRD` -/
  initrd : CText
  effects : List Effect

def Parse.emit (p : Parse) (e : Effect) : Parse :=
  { p with seg := putAll p.seg e.stores, effects := p.effects ++ [e] }

/-- The word at an address. -/
def wordAt (seg : Nat → UInt8) (a : Nat) : UInt16 :=
  UInt16.ofNat ((seg a).toNat + 256 * (seg (a + 1)).toNat)

/-- The store of a word. -/
def wordStores (a : Nat) (v : UInt16) : List (Nat × UInt8) :=
  storesAt a [v.toUInt8, (v >>> 8).toUInt8]

/-- `pc_append`. -/
def Parse.pcAppend (p : Parse) (input : List UInt8) : Parse :=
  if p.vkernel then
    let w := (Writer.at (UInt16.ofNat vkAppend)).movsb (getline input).stored
    let di := w.di - UInt16.ofNat vkAppend
    -- If "append -" -> null string
    let di := if di = 2 ∧ putAll p.seg w.stores vkAppend = 0x2D then 0 else di
    p.emit ⟨.vkernel, w.stores ++ wordStores vkAppendlen di, [di], []⟩
  else
    let w := (Writer.at (UInt16.ofNat appendBuf)).movsb (getline input).stored
    let di := w.di - UInt16.ofNat appendBuf
    { p.emit ⟨.append, w.stores, [di], []⟩ with appendLen := di }

/-- The `initrd` statement that `commit_vk` adds. -/
def addInitrd (initrd : CText) (w : Writer) : Writer :=
  if initrd.text = [] then w
  else
    let w := (w.movsb strInitrd).movsb initrd.raw
    w.store (w.di - 1) 0x20

/-- `commit_vk`. -/
def Parse.commitVk (p : Parse) : Parse :=
  if p.vkernel then
    let w := addInitrd p.initrd (Writer.at (UInt16.ofNat vkAppend + wordAt p.seg vkAppendlen))
    let ax := w.di - UInt16.ofNat vkAppend
    let cx := UInt16.ofNat (maxCmdLen + 1) - ax
    let pad := (Writer.at w.di).movsb (List.replicate cx.toNat 0)
    p.emit ⟨.vkernel, w.stores ++ wordStores vkAppendlen ax ++ pad.stores, [ax], [ax]⟩
  else p

/-- `pc_label`, behind `commit_vk`. -/
def Parse.newLabel (mg : Mangler) (p : Parse) (input : List UInt8) : Parse :=
  let name := labelName (getline input).stored
  let text := (List.range p.appendLen.toNat).map fun i => p.seg (appendBuf + i)
  let w := (Writer.at (UInt16.ofNat vkAppend)).movsb text
  { p.emit ⟨.vkernel, storesAt 0 (List.replicate vkSize 0) ++ storesAt 0 name ++
      storesAt vkRname (mg.mangle name) ++ wordStores vkAppendlen p.appendLen ++ w.stores,
      [p.appendLen], []⟩ with
    vkernel := true
    initrd := CText.empty }

/-- `pc_label`. -/
def Parse.pcLabel (mg : Mangler) (p : Parse) (input : List UInt8) : Parse :=
  p.commitVk.newLabel mg input

/-- `pc_kernel`. -/
def Parse.pcKernel (mg : Mangler) (p : Parse) (al : UInt8) (input : List UInt8) : Parse :=
  if p.vkernel then
    p.emit ⟨.vkernel,
      storesAt vkType [al] ++ storesAt vkRname (mg.mangle (getline input).stored), [], []⟩
  else p

/-- `pc_localboot`, with the number that `getint` leaves. -/
def Parse.pcLocalboot (p : Parse) (bx : UInt16) : Parse :=
  if p.vkernel then p.emit ⟨.vkernel, wordStores vkRname bx ++ storesAt vkType [0xFF], [], []⟩
  else p

/-- A string has no NUL. -/
theorem ne_zero_of_mem_cString {bytes : List UInt8} {b : UInt8} (h : b ∈ cString bytes) :
    b ≠ 0 := by
  have hne := List.mem_takeWhile_imp h
  exact bne_iff_ne.mp hne

/-- What `pc_filename` leaves in `InitRD`, where a name of 256 bytes has no end of its own. -/
def initrdName (mg : Mangler) (input : List UInt8) (behind : CText) : CText where
  text := cString (mg.mangle (getline input).stored ++ behind.raw)
  ne_zero _ := ne_zero_of_mem_cString

/-- `pc_filename`, for `InitRD`. -/
def Parse.pcFilename (mg : Mangler) (p : Parse) (input : List UInt8) (behind : CText) : Parse :=
  { p with initrd := initrdName mg input behind }

/-- The statements that store in these buffers, each with what `getc` yields from its parameter
on. -/
inductive Directive
  | append (input : List UInt8)
  | label (input : List UInt8)
  | kernel (al : UInt8) (input : List UInt8)
  | localboot (bx : UInt16)
  /-- With the memory behind `InitRD`. -/
  | initrd (input : List UInt8) (behind : CText)

def Parse.step (mg : Mangler) (p : Parse) : Directive → Parse
  | .append input => p.pcAppend input
  | .label input => p.pcLabel mg input
  | .kernel al input => p.pcKernel mg al input
  | .localboot bx => p.pcLocalboot bx
  | .initrd input behind => p.pcFilename mg input behind

/-- `.again` of `parse_config`, and the commit at the end. -/
def Parse.run (mg : Mangler) : List Directive → Parse → Parse
  | [], p => p.commitVk
  | d :: ds, p => Parse.run mg ds (p.step mg d)

/-- The start of `parse_config`, which clears `VKernelBuf`. `InitRD` may have the name of an earlier
configuration. -/
def Parse.start (mem : Nat → UInt8) (initrd : CText) : Parse :=
  Parse.emit ⟨mem, false, 0, initrd, []⟩
    ⟨.vkernel, storesAt 0 (List.replicate vkSize 0), [], []⟩

/-! ## Bounds -/

/-- No store is outside the buffer, no append length is above `max_cmd_len+1`, and no count of zeros
is negative. -/
structure Effect.Bounded (e : Effect) : Prop where
  inside : Inside e.buffer.lo e.buffer.hi e.stores
  lengths : ∀ n ∈ e.lengths, n.toNat ≤ maxCmdLen + 1
  padded : ∀ n ∈ e.padded, 0 ≤ ((maxCmdLen + 1 : Nat) : Int) - (n.toNat : Int)

def Parse.Bounded (p : Parse) : Prop := ∀ e ∈ p.effects, e.Bounded

/-- Where the append text ends that is committed. -/
def Parse.textEnd (p : Parse) : Nat :=
  (UInt16.ofNat vkAppend + wordAt p.seg vkAppendlen).toNat + (initrdArg p.initrd.text).length

/-- The text of the label that is committed, if there is one, ends in `vk_append`. -/
def Parse.CommitFits (p : Parse) : Prop :=
  p.vkernel = true → vkAppend ≤ p.textEnd ∧ p.textEnd ≤ vkSize

/-- There is room for what a statement stores. -/
def Parse.StepFits (mg : Mangler) (p : Parse) : Directive → Prop
  | .append input => (normalForm (currentLine input)).length ≤ maxCmdLen + 1
  | .label _ => p.CommitFits
  | .kernel _ input => p.vkernel = true →
      vkRname + (mg.mangle (normalForm (currentLine input))).length ≤ vkSize
  | .localboot _ => True
  | .initrd _ _ => True

/-- There is room for what each statement and the commit at the end store. -/
def Parse.Fits (mg : Mangler) : List Directive → Parse → Prop
  | [], p => p.CommitFits
  | d :: ds, p => p.StepFits mg d ∧ Parse.Fits mg ds (p.step mg d)

variable {mg : Mangler} {p : Parse} {e : Effect}

/-- One more effect. -/
theorem Parse.bounded_add {q : Parse} (h : q.effects = p.effects ++ [e]) :
    q.Bounded ↔ p.Bounded ∧ e.Bounded := by
  rw [Bounded, Bounded, h, List.forall_mem_append, List.forall_mem_singleton]

/-- Both bytes of a word are in the range that the word is in. -/
theorem inside_wordStores {lo hi a : Nat} (v : UInt16) (hlo : lo ≤ a) (hhi : a + 2 ≤ hi) :
    Inside lo hi (wordStores a v) :=
  (inside_storesAt_iff hlo (by omega)).mpr hhi

/-- Clearing the record stays in it. -/
theorem inside_clear : Inside 0 vkSize (storesAt 0 (List.replicate vkSize 0)) := by
  refine (inside_storesAt_iff le_rfl (Nat.zero_le _)).mpr ?_
  rw [List.length_replicate, Nat.zero_add]

/-- The type of a record is in the record. -/
theorem inside_type {lo hi : Nat} (al : UInt8) (hlo : lo ≤ vkType) (hhi : vkType + 1 ≤ hi) :
    Inside lo hi (storesAt vkType [al]) :=
  (inside_storesAt_iff hlo (by omega)).mpr hhi

/-- The line that is stored is the line of the file with single spaces. -/
theorem getline_stored (input : List UInt8) :
    (getline input).stored = normalForm (currentLine input) := by
  rw [getline_eq]

/-- A mangled name is not longer than its buffer if the name is not. -/
theorem Mangler.length_mangle_le (mg : Mangler) {src : List UInt8} (h : src.length < filenameMax) :
    (mg.mangle src).length ≤ filenameMax := by
  have hword : (Fs.wordOf src).length < Fs.filenameMax :=
    (List.takeWhile_prefix _).length_le.trans_lt h
  cases mg with
  | generic => exact Fs.length_mangleWith_le Fs.slash_sep (by decide) hword
  | vfat => exact Fs.length_mangleWith_le Fs.vfatSep_sep (by decide) hword

/-! ## What is committed -/

/-- As many bytes are written as the argument has. -/
theorem addInitrd_written (s : CText) (base : UInt16) :
    Written base (addInitrd s (Writer.at base)) (initrdArg s.text).length
      (initrdArg s.text).length := by
  rw [addInitrd, initrdArg]
  split_ifs with hnil
  · exact Written.at base
  · have harg := (Written.movsb_at base strInitrd).movsb s.raw le_rfl
    have hlen := s.length_raw
    have hdi : (((Writer.at base).movsb strInitrd).movsb s.raw).di - 1 =
        behind base (strInitrd.length + s.text.length) := by
      rw [harg.di, hlen, ← Nat.add_assoc, behind_succ, UInt16.add_sub_cancel]
    have hspace := harg.store (strInitrd.length + s.text.length) 0x20
    rw [← hdi] at hspace
    convert hspace using 1
    · simp only [List.length_append, List.length_singleton]
      omega
    · simp only [List.length_append, List.length_singleton]
      omega

theorem toNat_length_le_iff (di : UInt16) :
    (di - UInt16.ofNat vkAppend).toNat ≤ maxCmdLen + 1 ↔
      vkAppend ≤ di.toNat ∧ di.toNat ≤ vkSize := by
  have hlt := di.toNat_lt
  have hbase : (UInt16.ofNat vkAppend).toNat = 516 := rfl
  have happend : vkAppend = 516 := rfl
  have hsize : vkSize = 2564 := rfl
  rw [UInt16.toNat_sub, hbase, maxCmdLen]
  omega

theorem toNat_pad {ax : UInt16} (h : ax.toNat ≤ maxCmdLen + 1) :
    (UInt16.ofNat (maxCmdLen + 1) - ax).toNat = maxCmdLen + 1 - ax.toNat :=
  UInt16.toNat_sub_of_le _ _ (UInt16.le_iff_toNat_le.mpr h)

/-- What a commit stores behind a text, and where the text has to end. -/
theorem commit_bounded_iff {base : UInt16} {w : Writer} {n : Nat} (hw : Written base w n n) :
    Effect.Bounded ⟨.vkernel, w.stores ++ wordStores vkAppendlen (w.di - UInt16.ofNat vkAppend) ++
        ((Writer.at w.di).movsb (List.replicate
          (UInt16.ofNat (maxCmdLen + 1) - (w.di - UInt16.ofNat vkAppend)).toNat 0)).stores,
        [w.di - UInt16.ofNat vkAppend], [w.di - UInt16.ofNat vkAppend]⟩ ↔
      vkAppend ≤ base.toNat + n ∧ base.toNat + n ≤ vkSize := by
  have hsize : vkSize = vkAppend + (maxCmdLen + 1) := rfl
  have hlt : vkSize < 2 ^ 16 := by decide
  constructor
  · rintro ⟨hin, hlen, -⟩
    have hdi := (toNat_length_le_iff w.di).mp (hlen _ (List.mem_singleton.mpr rfl))
    rw [hw.di] at hdi
    have htext := (inside_append.mp (inside_append.mp hin).1).1
    have hbase : base.toNat ≤ vkSize := by
      by_cases hn : n = 0
      · rw [hn, toNat_behind, Nat.add_zero, Nat.mod_eq_of_lt base.toNat_lt] at hdi
        exact hdi.2
      · -- the first byte of the argument
        obtain ⟨x, hx, haddr⟩ := hw.dense 0 (Nat.pos_of_ne_zero hn)
        have hlast := (htext x hx).2
        rw [haddr, toNat_behind, Nat.add_zero, Nat.mod_eq_of_lt base.toNat_lt] at hlast
        exact hlast.le
    have hend := (hw.inside_iff (Nat.zero_le _) hbase hlt.le (Or.inl hlt)).mp htext
    rw [toNat_behind_of_lt (hend.trans_lt hlt)] at hdi
    exact hdi
  · intro hend
    have hdi : w.di.toNat = base.toNat + n := by
      rw [hw.di, toNat_behind_of_lt (hend.2.trans_lt hlt)]
    have hlen := (toNat_length_le_iff w.di).mpr (hdi ▸ hend)
    refine ⟨inside_append.mpr ⟨inside_append.mpr ⟨?_, ?_⟩, ?_⟩, ?_, ?_⟩
    · exact (hw.inside_iff (Nat.zero_le _) (by omega) hlt.le (Or.inl hlt)).mpr hend.2
    · exact inside_wordStores _ (Nat.zero_le _) (show vkAppendlen + 2 ≤ vkSize by decide)
    · refine ((Written.movsb_at w.di _).inside_iff (Nat.zero_le _) (hdi ▸ hend.2) hlt.le
        (Or.inl hlt)).mpr ?_
      have hax : (w.di - UInt16.ofNat vkAppend).toNat = w.di.toNat - vkAppend :=
        UInt16.toNat_sub_of_le _ _ (UInt16.le_iff_toNat_le.mpr (hdi ▸ hend.1))
      rw [List.length_replicate, toNat_pad hlen, hax]
      show _ ≤ vkSize
      omega
    · exact List.forall_mem_singleton.mpr hlen
    · exact List.forall_mem_singleton.mpr (by omega)

/-- A commit stays in its bounds exactly when the text ends in `vk_append`. -/
theorem Parse.bounded_commitVk : p.commitVk.Bounded ↔ p.Bounded ∧ p.CommitFits := by
  rw [commitVk, CommitFits, textEnd]
  split_ifs with hvk
  · rw [bounded_add rfl, commit_bounded_iff (addInitrd_written _ _)]
    exact and_congr_right fun _ => ⟨fun hend _ => hend, fun hend => hend hvk⟩
  · exact (and_iff_left fun h => absurd h hvk).symm

/-- A word of a record in memory is the one of the record. -/
theorem wordAt_of_holds {seg : Nat → UInt8} {bs : List UInt8} {a : Nat} (h : Holds seg 0 bs)
    (hle : a + 2 ≤ bs.length) : wordAt seg a = UInt16.ofNat (readLe bs a 2) := by
  have h0 := h a _ (List.getElem?_eq_getElem (by omega))
  have h1 := h (a + 1) _ (List.getElem?_eq_getElem (by omega))
  rw [Nat.zero_add] at h0 h1
  rw [wordAt, h0, h1, readLe, slice, List.drop_eq_getElem_cons (by omega),
    List.drop_eq_getElem_cons (by omega)]
  rfl

/-- The argument is written where `DI` was. -/
theorem addInitrd_built (seg : Nat → UInt8) (s : CText) (base : UInt16) :
    Built seg base (addInitrd s (Writer.at base)) (initrdArg s.text) := by
  rw [addInitrd, initrdArg]
  split_ifs
  · exact Built.at seg base
  · have hraw := ((Built.at seg base).movsb strInitrd).movsb s.raw
    rw [CText.raw, ← List.append_assoc] at hraw
    exact hraw.store_last 0x20

/-- The two bytes of a number that fits in a word. -/
theorem wordStores_ofNat {a n : Nat} (h : n < 2 ^ 16) :
    wordStores a (UInt16.ofNat n) = storesAt a [UInt8.ofNat n, UInt8.ofNat (n / 256)] := by
  have hn : (UInt16.ofNat n).toNat = n := UInt16.toNat_ofNat_of_lt' h
  have hlo : (UInt16.ofNat n).toUInt8 = UInt8.ofNat n :=
    UInt8.toNat_inj.mp (by rw [UInt16.toNat_toUInt8, hn, UInt8.toNat_ofNat'])
  have hhi : (UInt16.ofNat n >>> 8).toUInt8 = UInt8.ofNat (n / 256) :=
    UInt8.toNat_inj.mp (by
      rw [UInt16.toNat_toUInt8, UInt16.toNat_shiftRight, hn, UInt8.toNat_ofNat',
        Nat.shiftRight_eq_div_pow]
      rfl)
  rw [wordStores, hlo, hhi]

/-- A field that is stored in memory is put into the record. -/
theorem holds_put {seg : Nat → UInt8} {vk : VKernel} (h : Holds seg 0 vk.bytes) {off : Nat}
    {ys : List UInt8} (hlo : filenameMax ≤ off) (hhi : off + ys.length ≤ vkSize) :
    Holds (putAll seg (storesAt off ys)) 0 (vk.put off ys hlo hhi).bytes :=
  h.storesAt (by rw [vk.length_eq]; exact hhi)

/-- So is a text that is written from a place in the record on. -/
theorem holds_put_built {seg : Nat → UInt8} {vk : VKernel} (h : Holds seg 0 vk.bytes)
    {base : UInt16} {w : Writer} {text : List UInt8} (hbuilt : Built seg base w text)
    (hw : Written base w text.length text.length) {off : Nat} (hbase : base.toNat = off)
    (hlo : filenameMax ≤ off) (hhi : off + text.length ≤ vkSize) :
    Holds (putAll seg w.stores) 0 (vk.put off text hlo hhi).bytes := by
  subst hbase
  exact hbuilt.blit hw h (by rw [vk.length_eq]; exact hhi) (by rw [vk.length_eq]; decide)

/-- Where the text fits, the buffer has the record that is committed: the commit of the parser in
memory is that of the parser of commands. -/
theorem Parse.commitVk_cleanAppend {vk vk' : VKernel} (hvk : p.vkernel = true)
    (hbuf : Holds p.seg 0 vk.bytes) (hclean : cleanAppend vk p.initrd.text = some vk') :
    Holds p.commitVk.seg 0 vk'.bytes := by
  let len := vk.appendlen + (initrdArg p.initrd.text).length
  have hsize : vkSize = vkAppend + (maxCmdLen + 1) := rfl
  have hlt : vkAppend + (maxCmdLen + 1) < 2 ^ 16 := by decide
  rw [cleanAppend] at hclean
  split_ifs at hclean with hfits
  have hword : wordAt p.seg vkAppendlen = UInt16.ofNat vk.appendlen :=
    wordAt_of_holds hbuf (by rw [vk.length_eq]; decide)
  have hbase : (UInt16.ofNat vkAppend + UInt16.ofNat vk.appendlen).toNat =
      vkAppend + vk.appendlen := by
    rw [← UInt16.ofNat_add]
    exact UInt16.toNat_ofNat_of_lt' (show vkAppend + vk.appendlen < 2 ^ 16 by omega)
  let w := addInitrd p.initrd (Writer.at (UInt16.ofNat vkAppend + UInt16.ofNat vk.appendlen))
  have hw : Written _ w _ _ := addInitrd_written p.initrd _
  have hdi : w.di = UInt16.ofNat (vkAppend + len) := by
    rw [hw.di, behind, UInt16.ofNat_add vkAppend, UInt16.ofNat_add, UInt16.add_assoc]
  have hax : w.di - UInt16.ofNat vkAppend = UInt16.ofNat len := by
    rw [hdi, UInt16.ofNat_add, UInt16.add_comm, UInt16.add_sub_cancel]
  have hlen : (UInt16.ofNat len).toNat = len :=
    UInt16.toNat_ofNat_of_lt' (show len < 2 ^ 16 by omega)
  have hcx : (UInt16.ofNat (maxCmdLen + 1) - UInt16.ofNat len).toNat = maxCmdLen + 1 - len := by
    rw [toNat_pad (by rw [hlen]; exact hfits), hlen]
  -- the argument, the length and the zeros, one after the other
  have hend : w.di.toNat = vkAppend + len := by
    rw [hdi]
    exact UInt16.toNat_ofNat_of_lt' (show vkAppend + len < 2 ^ 16 by omega)
  have harg := holds_put_built hbuf (addInitrd_built p.seg p.initrd _) hw hbase
    (Nat.le_add_right_of_le (by decide)) (by omega)
  have hnum := holds_put harg (by decide) (show vkAppendlen + [UInt8.ofNat len,
    UInt8.ofNat (len / 256)].length ≤ vkSize from (by decide : vkAppendlen + 2 ≤ vkSize))
  rw [← wordStores_ofNat (show len < 2 ^ 16 by omega)] at hnum
  have hpad := holds_put_built hnum
    ((Built.at _ w.di).movsb (List.replicate (maxCmdLen + 1 - len) 0))
    (Written.movsb_at w.di _) hend (Nat.le_add_right_of_le (by decide)) (by
      rw [List.nil_append, List.length_replicate]
      omega)
  rw [commitVk, if_pos hvk, ← Option.some.inj hclean]
  dsimp only [emit]
  rw [hword, hax, hcx, putAll_append, putAll_append]
  exact hpad

/-! ## What the statements store -/

/-- A label stays in its bounds with a global append text that does. -/
theorem Parse.bounded_newLabel (hlen : p.appendLen.toNat ≤ maxCmdLen + 1) (input : List UInt8) :
    (p.newLabel mg input).Bounded ↔ p.Bounded := by
  have hsize : vkSize = vkAppend + (maxCmdLen + 1) := rfl
  have hname := length_labelName (getline input).stored
  have hmangled : (mg.mangle (labelName (getline input).stored)).length ≤ filenameMax :=
    mg.length_mangle_le hname
  refine (bounded_add rfl).trans (and_iff_left ⟨?_, ?_, ?_⟩)
  · refine inside_append.mpr ⟨inside_append.mpr ⟨inside_append.mpr ⟨inside_append.mpr
      ⟨?_, ?_⟩, ?_⟩, ?_⟩, ?_⟩
    · exact inside_clear
    · refine (inside_storesAt_iff le_rfl (Nat.zero_le _)).mpr ?_
      rw [Nat.zero_add]
      exact hname.le.trans (show filenameMax ≤ vkSize by decide)
    · refine (inside_storesAt_iff (Nat.zero_le _) (show vkRname ≤ vkSize by decide)).mpr ?_
      exact (Nat.add_le_add_left hmangled vkRname).trans
        (show vkRname + filenameMax ≤ vkSize by decide)
    · exact inside_wordStores _ (Nat.zero_le _) (show vkAppendlen + 2 ≤ vkSize by decide)
    · refine ((Written.movsb_at _ _).inside_iff (Nat.zero_le _)
        (show (UInt16.ofNat vkAppend).toNat ≤ vkSize by decide)
        (show vkSize ≤ 2 ^ 16 by decide) (Or.inl (show vkSize < 2 ^ 16 by decide))).mpr ?_
      rw [List.length_map, List.length_range]
      exact Nat.add_le_add_left hlen vkAppend
  · exact List.forall_mem_singleton.mpr hlen
  · exact List.forall_mem_nil _

/-- The text of an `append` statement has to fit in its field. -/
theorem append_inside_iff {lo hi base : Nat} (hlo : lo ≤ base) (hhi : hi = base + (maxCmdLen + 1))
    (hlt : hi < 2 ^ 16) (line : List UInt8) :
    Inside lo hi ((Writer.at (UInt16.ofNat base)).movsb line).stores ↔
      line.length ≤ maxCmdLen + 1 := by
  have hbase : (UInt16.ofNat base).toNat = base := UInt16.toNat_ofNat_of_lt'
    (show base < 2 ^ 16 by omega)
  rw [(Written.movsb_at _ line).inside_iff (by omega) (by omega) hlt.le (Or.inl hlt), hbase, hhi]
  exact Nat.add_le_add_iff_left

/-- The length is taken from `di`. -/
theorem append_di (base : UInt16) (line : List UInt8) :
    ((Writer.at base).movsb line).di - base = UInt16.ofNat line.length := by
  rw [(Written.movsb_at base line).di, behind, UInt16.add_comm, UInt16.add_sub_cancel]

/-- The length of an append text is not more than that of its line. -/
theorem append_length_le (base : UInt16) (line : List UInt8) :
    (((Writer.at base).movsb line).di - base).toNat ≤ line.length := by
  rw [append_di, UInt16.toNat_ofNat']
  exact Nat.mod_le _ _

/-- An `append` line stays in its buffer if it is not longer than that. -/
theorem Parse.bounded_pcAppend (input : List UInt8) :
    (p.pcAppend input).Bounded ↔
      p.Bounded ∧ (normalForm (currentLine input)).length ≤ maxCmdLen + 1 := by
  rw [pcAppend]
  split_ifs with hvk
  · refine (bounded_add rfl).trans (and_congr_right fun _ => ?_)
    have htext := append_inside_iff (Nat.zero_le vkAppend) (show vkSize = _ from rfl) (by decide)
      (getline input).stored
    have hlen := append_length_le (UInt16.ofNat vkAppend) (getline input).stored
    rw [getline_stored] at htext hlen ⊢
    constructor
    · rintro ⟨hin, -, -⟩
      exact htext.mp (inside_append.mp hin).1
    · intro hfits
      refine ⟨inside_append.mpr ⟨htext.mpr hfits, ?_⟩, ?_, List.forall_mem_nil _⟩
      · exact inside_wordStores _ (Nat.zero_le _) (show vkAppendlen + 2 ≤ vkSize by decide)
      · refine List.forall_mem_singleton.mpr ?_
        split_ifs
        · exact Nat.zero_le _
        · exact hlen.trans hfits
  · refine (bounded_add rfl).trans (and_congr_right fun _ => ?_)
    have htext := append_inside_iff (le_refl appendBuf) (rfl : Buffer.append.hi = _) (by decide)
      (getline input).stored
    have hlen := append_length_le (UInt16.ofNat appendBuf) (getline input).stored
    rw [getline_stored] at htext hlen ⊢
    constructor
    · rintro ⟨hin, -, -⟩
      exact htext.mp hin
    · intro hfits
      refine ⟨htext.mpr hfits, ?_, List.forall_mem_nil _⟩
      exact List.forall_mem_singleton.mpr (hlen.trans hfits)

/-- A `kernel` line does if the mangled name fits into the record. -/
theorem Parse.bounded_pcKernel (al : UInt8) (input : List UInt8) :
    (p.pcKernel mg al input).Bounded ↔ p.Bounded ∧ (p.vkernel = true →
      vkRname + (mg.mangle (normalForm (currentLine input))).length ≤ vkSize) := by
  rw [pcKernel]
  split_ifs with hvk
  · rw [getline_stored]
    have hname : Inside 0 vkSize
        (storesAt vkRname (mg.mangle (normalForm (currentLine input)))) ↔ _ :=
      inside_storesAt_iff (Nat.zero_le vkRname) (by decide)
    refine (bounded_add rfl).trans (and_congr_right fun _ => ⟨fun hin _ => ?_, fun hfits => ?_⟩)
    · exact hname.mp (inside_append.mp hin.inside).2
    · refine ⟨inside_append.mpr ⟨?_, hname.mpr (hfits hvk)⟩, ?_, List.forall_mem_nil _⟩
      · exact inside_type al (Nat.zero_le _) (show vkType + 1 ≤ vkSize by decide)
      · exact List.forall_mem_nil _
  · exact (and_iff_left fun h => absurd h hvk).symm

/-- A `localboot` line always does. -/
theorem Parse.bounded_pcLocalboot (bx : UInt16) : (p.pcLocalboot bx).Bounded ↔ p.Bounded := by
  rw [pcLocalboot]
  split_ifs
  · refine (bounded_add rfl).trans (and_iff_left ⟨inside_append.mpr ⟨?_, ?_⟩, ?_, ?_⟩)
    · exact inside_wordStores _ (Nat.zero_le _) (show vkRname + 2 ≤ vkSize by decide)
    · exact inside_type 0xFF (Nat.zero_le _) (show vkType + 1 ≤ vkSize by decide)
    · exact List.forall_mem_nil _
    · exact List.forall_mem_nil _
  · exact Iff.rfl

/-! ## Runs -/

/-- The append text of the global section fits. -/
def Parse.Inv (p : Parse) : Prop := p.appendLen.toNat ≤ maxCmdLen + 1

/-- A commit leaves the length of the global append text. -/
theorem Parse.appendLen_commitVk : p.commitVk.appendLen = p.appendLen := by
  rw [commitVk]
  split_ifs <;> rfl

/-- So does a new label. -/
theorem Parse.appendLen_newLabel (input : List UInt8) :
    (p.newLabel mg input).appendLen = p.appendLen := by
  unfold newLabel emit
  rfl

/-- A statement stays in its bounds exactly when there is room for it. -/
theorem Parse.bounded_step (hinv : p.Inv) (d : Directive) :
    (p.step mg d).Bounded ↔ p.Bounded ∧ p.StepFits mg d := by
  cases d with
  | append input => exact bounded_pcAppend input
  | label input =>
    have hcommit : p.commitVk.appendLen.toNat ≤ maxCmdLen + 1 := by
      rw [appendLen_commitVk]
      exact hinv
    exact (bounded_newLabel hcommit input).trans bounded_commitVk
  | kernel al input => exact bounded_pcKernel al input
  | localboot bx => exact (bounded_pcLocalboot bx).trans (and_iff_left trivial).symm
  | initrd input behind => exact (and_iff_left trivial).symm

/-- The global append text still fits behind a statement for which there is room. -/
theorem Parse.Inv.step (hinv : p.Inv) {d : Directive} (hfits : p.StepFits mg d) :
    (p.step mg d).Inv := by
  cases d with
  | append input =>
    rw [Parse.step, pcAppend]
    split_ifs
    · exact hinv
    · have hlen := append_length_le (UInt16.ofNat appendBuf) (getline input).stored
      rw [getline_stored] at hlen
      rw [getline_stored]
      exact hlen.trans hfits
  | label input =>
    rw [Parse.step, pcLabel, Inv, appendLen_newLabel, appendLen_commitVk]
    exact hinv
  | kernel al input =>
    rw [Parse.step, pcKernel]
    split_ifs <;> exact hinv
  | localboot bx =>
    rw [Parse.step, pcLocalboot]
    split_ifs <;> exact hinv
  | initrd input behind => exact hinv

/-- What was stored before a commit was stored. -/
theorem Parse.effects_commitVk : p.effects <+: p.commitVk.effects := by
  rw [commitVk]
  split_ifs
  · exact List.prefix_append _ _
  · exact List.prefix_rfl

/-- What was stored before a directive was stored. -/
theorem Parse.effects_step (d : Directive) : p.effects <+: (p.step mg d).effects := by
  cases d with
  | append input =>
    rw [Parse.step, pcAppend]
    split_ifs <;> exact List.prefix_append _ _
  | label input => exact effects_commitVk.trans (List.prefix_append _ _)
  | kernel al input =>
    rw [Parse.step, pcKernel]
    split_ifs
    · exact List.prefix_append _ _
    · exact List.prefix_rfl
  | localboot bx =>
    rw [Parse.step, pcLocalboot]
    split_ifs
    · exact List.prefix_append _ _
    · exact List.prefix_rfl
  | initrd input behind => exact List.prefix_rfl

/-- What was stored before some directives was stored. -/
theorem Parse.effects_run (ds : List Directive) : p.effects <+: (Parse.run mg ds p).effects := by
  induction ds generalizing p with
  | nil => exact effects_commitVk
  | cons d ds ih => exact (effects_step d).trans ih

/-- A run stays in its bounds exactly when there is room at each of its statements. -/
theorem Parse.bounded_run (hinv : p.Inv) (ds : List Directive) :
    (Parse.run mg ds p).Bounded ↔ p.Bounded ∧ Parse.Fits mg ds p := by
  induction ds generalizing p with
  | nil => exact bounded_commitVk
  | cons d ds ih =>
    have hstep : (p.step mg d).Bounded ↔ _ := bounded_step hinv d
    rw [Parse.run, Fits, ← and_assoc, ← hstep]
    by_cases hfits : p.StepFits mg d
    · exact ih (hinv.step hfits)
    · -- what the statement did outside is still there at the end
      refine iff_of_false (fun hrun => ?_) fun h => hfits (hstep.mp h.1).2
      have hbounded : (p.step mg d).Bounded := fun e he => hrun e ((effects_run ds).subset he)
      exact hfits (hstep.mp hbounded).2

/-- In front of the first directive nothing is out of bounds. -/
theorem Parse.bounded_start (mem : Nat → UInt8) (initrd : CText) :
    (Parse.start mem initrd).Bounded := by
  refine List.forall_mem_singleton.mpr ⟨inside_clear, ?_, ?_⟩
  · exact List.forall_mem_nil _
  · exact List.forall_mem_nil _

/-- A configuration stays in bounds if each of its directives fits where it stands. -/
theorem Parse.bounded_run_start (mem : Nat → UInt8) (initrd : CText) (ds : List Directive) :
    (Parse.run mg ds (Parse.start mem initrd)).Bounded ↔
      Parse.Fits mg ds (Parse.start mem initrd) := by
  have hinv : (Parse.start mem initrd).Inv := Nat.zero_le _
  exact (bounded_run hinv ds).trans (and_iff_right (bounded_start mem initrd))

/-- For every configuration, no byte outside the buffers is stored, no append length is above
`max_cmd_len+1` and no count of zeros is negative: exactly when each `append` text, each text that
is committed with its `initrd` argument, and each name of a kernel fits. -/
theorem parse_config_bounded_iff (mg : Mangler) (mem : Nat → UInt8) (initrd : CText)
    (ds : List Directive) :
    (∀ e ∈ (Parse.run mg ds (Parse.start mem initrd)).effects, e.Bounded) ↔
      Parse.Fits mg ds (Parse.start mem initrd) := by
  exact Parse.bounded_run_start mem initrd ds

/-- A text without blanks is kept, with a space behind it. -/
theorem normalRest_letters (n : Nat) :
    normalRest (List.replicate n 0x61) = List.replicate n 0x61 ++ [0x20] := by
  induction n with
  | zero => rfl
  | succ n ih => rw [List.replicate_succ, (normal_of_not_blank (by decide)).2, ih, List.cons_append]

/-- A word of many letters: its blank comes on top. -/
theorem length_normalForm_letters (n : Nat) :
    (normalForm (currentLine (List.replicate (n + 1) 0x61))).length = n + 2 := by
  have hline : currentLine (List.replicate (n + 1) 0x61) = List.replicate (n + 1) 0x61 :=
    List.takeWhile_eq_self_iff.mpr fun c hc => by
      rw [List.eq_of_mem_replicate hc]
      decide
  rw [hline, List.replicate_succ, (normal_of_not_blank (by decide)).1, normalRest_letters]
  simp

/-- An `append` statement of 2048 letters in a label is longer than its field with the blank behind
it. -/
theorem parse_config_unbounded :
    ¬∀ (mg : Mangler) (mem : Nat → UInt8) (initrd : CText) (ds : List Directive),
      ∀ e ∈ (Parse.run mg ds (Parse.start mem initrd)).effects, e.Bounded := by
  intro hall
  have hrun := hall .generic (fun _ => 0) CText.empty
    [.label [0x61, 10], .append (List.replicate (2047 + 1) 0x61)]
  obtain ⟨-, happend, -⟩ := (Parse.bounded_run_start _ _ _).mp hrun
  have hlen : _ ≤ maxCmdLen + 1 := happend
  rw [length_normalForm_letters] at hlen
  exact absurd hlen (by decide)

end Liigboot.Config
