import Liigboot.Config.Store
import Mathlib.Data.List.TakeWhile

/-!
# Committing the labels of a configuration

`parse_config` keeps one record under construction in `VKernelBuf`. A `label`
command commits the record before it and starts a new one; the end of the
configuration commits the last. The commands in between store behind the virtual
name only. So a configuration commits one record for each of its labels, in
their order and under their names.
-/

namespace Liigboot.Config

/-- What `parse_config` keeps about the label it is reading. -/
structure Parser where
  /-- `VKernel`: a `label` statement has been seen. -/
  vkernel : Bool
  vkernelBuf : VKernel
  /-- `InitRD`, empty without an `initrd` statement. -/
  initrd : List UInt8
  store : Store

/-- `initrd=` -/
def strInitrd : List UInt8 := [0x69, 0x6e, 0x69, 0x74, 0x72, 0x64, 0x3d]

/-- What `commit_vk` adds to the append field for an `initrd` statement. -/
def initrdArg (initrd : List UInt8) : List UInt8 :=
  if initrd = [] then [] else strInitrd ++ initrd ++ [0x20]

/-- The append field of a record that is to be committed: the `initrd` argument behind the
append text, and zeros behind both. A text that is too long for the field makes the count of
the zero fill wrap, which wipes memory far behind the record; nothing is said about that. -/
def cleanAppend (vk : VKernel) (initrd : List UInt8) : Option VKernel :=
  let arg := initrdArg initrd
  let len := vk.appendlen + arg.length
  if h : len ≤ maxCmdLen + 1 then
    let vk := vk.put (vkAppend + vk.appendlen) arg (Nat.le_add_right_of_le (by decide)) (by
      rw [Nat.add_assoc]
      exact Nat.add_le_add_left h vkAppend)
    let vk := vk.put vkAppendlen [UInt8.ofNat len, UInt8.ofNat (len / 256)] (by decide)
      (show vkAppendlen + 2 ≤ vkSize by decide)
    some (vk.put (vkAppend + len) (List.replicate (maxCmdLen + 1 - len) 0)
      (Nat.le_add_right_of_le (by decide)) (by
        rw [List.length_replicate, Nat.add_assoc, Nat.add_sub_cancel' h]
        decide))
  else none

/-- `commit_vk`. -/
def commitVk (p : Parser) : Option Parser :=
  if p.vkernel = false then some p
  else (cleanAppend p.vkernelBuf p.initrd).map fun vk =>
    { p with vkernelBuf := vk, store := p.store.commit vk }

/-- The commands that touch the record under construction. -/
inductive Command
  | label (line : List UInt8)
  /-- A store behind the virtual name: by `kernel`, `append`, `localboot` and their kin, and by
  `label` itself for the real name and the global append text. -/
  | put (off : Nat) (ys : List UInt8) (hlo : filenameMax ≤ off) (hhi : off + ys.length ≤ vkSize)
  | initrd (name : List UInt8)

/-- `pc_label`, up to its stores behind the virtual name. -/
def pcLabel (line : List UInt8) (p : Parser) : Option Parser :=
  (commitVk p).map fun p =>
    { p with
      vkernel := true
      initrd := []
      vkernelBuf := VKernel.named (labelName line) (length_labelName line) }

def Parser.step (p : Parser) : Command → Option Parser
  | .label line => pcLabel line p
  | .put off ys hlo hhi => some { p with vkernelBuf := p.vkernelBuf.put off ys hlo hhi }
  | .initrd name => some { p with initrd := name }

/-- `parse_config`, with the commit at the end of the configuration. -/
def parseConfig : List Command → Parser → Option Parser
  | [], p => commitVk p
  | c :: cs, p => (p.step c).bind (parseConfig cs)

/-- The name a command gives to a new label. -/
def Command.labelName? : Command → Option (List UInt8)
  | .label line => some (labelName line)
  | _ => none

/-- The names of the labels of a configuration, in order. -/
def labelNames (cs : List Command) : List (List UInt8) := cs.filterMap Command.labelName?

/-- The record under construction, as the names it will be committed under. -/
def Parser.pending (p : Parser) : List (List UInt8) :=
  if p.vkernel then [p.vkernelBuf.vname] else []

/-! ## Names survive until the commit -/

/-- A string that ends inside a prefix of two buffers reads the same in both. -/
theorem cString_congr {xs ys : List UInt8} {n : Nat} (h : ∀ i ≤ n, xs[i]? = ys[i]?)
    (h0 : xs[n]? = some 0) : cString xs = cString ys := by
  induction n generalizing xs ys with
  | zero =>
    have hy : ys[0]? = some 0 := (h 0 le_rfl).symm.trans h0
    rw [← List.head?_eq_getElem?] at h0 hy
    obtain ⟨xs, rfl⟩ := List.head?_eq_some_iff.mp h0
    obtain ⟨ys, rfl⟩ := List.head?_eq_some_iff.mp hy
    rfl
  | succ n ih =>
    cases xs with
    | nil => exact absurd h0 (by simp)
    | cons x xs =>
      have hx := h 0 (Nat.zero_le _)
      cases ys with
      | nil => exact absurd hx (by simp)
      | cons y ys =>
        obtain rfl : x = y := Option.some.inj hx
        have htail : cString xs = cString ys := ih
          (fun i hi => by simpa using h (i + 1) (Nat.succ_le_succ hi)) (by simpa using h0)
        simp only [cString, List.takeWhile_cons] at htail ⊢
        rw [htail]

@[simp] theorem vname_put (vk : VKernel) (off : Nat) (ys : List UInt8) (hlo : filenameMax ≤ off)
    (hhi : off + ys.length ≤ vkSize) : (vk.put off ys hlo hhi).vname = vk.vname := by
  obtain ⟨n, hn, h0⟩ := vk.vname_ends
  have hoff : off ≤ vk.bytes.length := by
    rw [vk.length_eq]
    omega
  refine (cString_congr (n := n) (fun i hi => ?_) h0).symm
  exact (getElem?_blit_of_lt hoff (by omega)).symm

/-- A name without a null character reads back from its record. -/
theorem vname_named {name : List UInt8} (h : name.length < filenameMax) (h0 : ∀ c ∈ name, c ≠ 0) :
    (VKernel.named name h).vname = name := by
  have hlt : name.length < vkSize := h.trans (by decide)
  obtain ⟨k, hsize⟩ : ∃ k, vkSize - name.length = k + 1 := ⟨vkSize - name.length - 1, by omega⟩
  have hname : ∀ c ∈ name, (c != 0) = true := fun c hc => bne_iff_ne.mpr (h0 c hc)
  simp only [VKernel.vname, VKernel.named, cString, blit, List.take_zero, List.nil_append,
    List.drop_replicate, Nat.zero_add, hsize, List.replicate_succ,
    List.takeWhile_append_of_pos hname]
  rw [List.takeWhile_cons_of_neg (by decide), List.append_nil]

theorem ne_zero_of_mem_labelName {line : List UInt8} {c : UInt8} (h : c ∈ labelName line) :
    c ≠ 0 := by
  have hgt := List.mem_takeWhile_imp (List.mem_of_mem_take h)
  rintro rfl
  exact absurd hgt (by decide)

theorem vname_cleanAppend {vk vk' : VKernel} {initrd : List UInt8}
    (h : cleanAppend vk initrd = some vk') : vk'.vname = vk.vname := by
  simp only [cleanAppend] at h
  split at h
  · rw [← Option.some.inj h, vname_put, vname_put, vname_put]
  · exact absurd h (by simp)

/-! ## What a configuration commits -/

/-- A commit packs the record under construction, if there is one, under its name. -/
theorem commitVk_store {p p' : Parser} (h : commitVk p = some p') :
    ∃ vks : List VKernel, vks.map VKernel.vname = p.pending ∧
      p'.store = vks.foldl Store.commit p.store := by
  by_cases hv : p.vkernel = false
  · rw [commitVk, if_pos hv] at h
    obtain rfl := Option.some.inj h
    exact ⟨[], by simp [Parser.pending, hv], rfl⟩
  · rw [commitVk, if_neg hv] at h
    obtain ⟨vk, hvk, rfl⟩ := Option.map_eq_some_iff.mp h
    refine ⟨[vk], ?_, rfl⟩
    simp [Parser.pending, hv, vname_cleanAppend hvk]

/-- One command commits the record before it, if it starts a new label. -/
theorem step_store {p p' : Parser} {c : Command} (h : p.step c = some p') :
    ∃ vks : List VKernel, vks.map VKernel.vname ++ p'.pending = p.pending ++ c.labelName?.toList ∧
      p'.store = vks.foldl Store.commit p.store := by
  cases c with
  | label line =>
    obtain ⟨q, hq, rfl⟩ := Option.map_eq_some_iff.mp h
    obtain ⟨vks, hnames, hstore⟩ := commitVk_store hq
    refine ⟨vks, ?_, hstore⟩
    rw [hnames]
    simp [Parser.pending, Command.labelName?, vname_named _ fun c => ne_zero_of_mem_labelName]
  | put off ys hlo hhi =>
    obtain rfl := Option.some.inj h
    refine ⟨[], ?_, rfl⟩
    simp [Parser.pending, Command.labelName?]
  | initrd name =>
    obtain rfl := Option.some.inj h
    refine ⟨[], ?_, rfl⟩
    simp [Parser.pending, Command.labelName?]

/-- A configuration commits one record for the label it starts in and one for each of its own
labels, in order: its store is one of those that the scans are about. -/
theorem parseConfig_store {cs : List Command} {p p' : Parser} (h : parseConfig cs p = some p') :
    ∃ vks : List VKernel, vks.map VKernel.vname = p.pending ++ labelNames cs ∧
      p'.store = vks.foldl Store.commit p.store := by
  induction cs generalizing p with
  | nil =>
    obtain ⟨vks, hnames, hstore⟩ := commitVk_store h
    exact ⟨vks, by rw [hnames, labelNames, List.filterMap_nil, List.append_nil], hstore⟩
  | cons c cs ih =>
    obtain ⟨q, hq, hrest⟩ := Option.bind_eq_some_iff.mp h
    obtain ⟨vks, hnames, hstore⟩ := step_store hq
    obtain ⟨ws, hnames', hstore'⟩ := ih hrest
    refine ⟨vks ++ ws, ?_, ?_⟩
    · have hsplit : labelNames (c :: cs) = c.labelName?.toList ++ labelNames cs := by
        rw [labelNames, List.filterMap_cons]
        cases c.labelName? <;> rfl
      rw [List.map_append, hnames', hsplit, ← List.append_assoc, hnames, List.append_assoc]
    · rw [hstore', hstore, List.foldl_append]

end Liigboot.Config
