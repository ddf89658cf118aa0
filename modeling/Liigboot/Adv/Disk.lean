import Liigboot.Adv.Verify

/-!
# The vector on the disk

The numbers of the two sectors are dwords in the first bytes of the boot code, and the limit of a
transfer follows them. `adv_read_write` takes the high half of a sector number from the dword behind
it. A transfer that fails is tried again, six times in all.
-/

namespace Liigboot.Adv

/-! ## The source -/

/-- The address of `ADVSec0`. The boot code has addresses from here on. -/
def advSec0 : Nat := 0

/-- The address of `ADVSec1`. -/
def advSec1 : Nat := 4

/-- The address of `MaxTransfer`, a word with a zero word behind it. -/
def maxTransfer : Nat := 8

/-- `adv_retries`. -/
def advRetries : Nat := 6

/-- A call of `int 13h` with a disk address packet. -/
structure Transfer where
  ah : UInt8
  dl : UInt8
  count : Nat
  bx : Nat
  lba : Nat
  deriving DecidableEq, Repr

/-- The first bytes of the boot code, and `ADVDrive`. -/
structure Location where
  code : Mem
  advDrive : UInt8

/-- `.eb_retry`, with `CX` and the carry flag of each call. -/
def ebRetry (packet : Transfer) (carry : Nat → Bool) : Nat → List Transfer
  | 0 => []
  | cx + 1 => packet :: if carry cx then ebRetry packet carry cx else []

/-- `.ebios`, with `EAX`, `EDX` and `BX`. -/
def ebios (advDrive advOp : UInt8) (eax edx : UInt32) (bx : Nat) (carry : Nat → Bool) :
    List Transfer :=
  ebRetry ⟨0x40 ||| advOp, advDrive, 1, bx, eax.toNat + 2 ^ 32 * edx.toNat⟩ carry advRetries

/-- The carry flags of the calls for the two copies. -/
structure Retries where
  first : Nat → Bool
  second : Nat → Bool

/-- `adv_read_write`. -/
def advReadWrite (loc : Location) (ah : UInt8) (carry : Retries) : List Transfer :=
  ebios loc.advDrive ah (dword loc.code advSec0) (dword loc.code (advSec0 + 4)) adv0 carry.first ++
    ebios loc.advDrive ah (dword loc.code advSec1) (dword loc.code (advSec1 + 4)) adv1 carry.second

/-- `adv_read`. -/
def advRead (loc : Location) (carry : Retries) : List Transfer := advReadWrite loc 2 carry

/-- `adv_write`: none when it returns with the carry flag set. -/
def advWrite (loc : Location) (carry : Retries) : Option (List Transfer) :=
  if dword loc.code advSec0 ||| dword loc.code (advSec0 + 4) = 0 then none
  else if dword loc.code advSec1 ||| dword loc.code (advSec1 + 4) = 0 then none
  else if loc.advDrive = 0xff then none
  else some (advReadWrite loc 3 carry)

/-- `adv_init`, up to `adv_read`: none without a vector on the disk. -/
def advInit (code : Mem) (hidden : UInt32) (driveNumber : UInt8) : Option Location :=
  if dword code advSec0 = 0 then none
  else
    let code := putDword code advSec0 (dword code advSec0 + hidden)
    let code := putDword code advSec1 (dword code advSec1 + hidden)
    some ⟨code, driveNumber⟩

/-! ## Sessions -/

/-- The transfers of a session: `adv_init` reads the vector, and then `adv_write` is called any
number of times. -/
def session (loc : Location) (read : Retries) (writes : List Retries) : List Transfer :=
  advRead loc read ++ writes.flatMap fun carry => (advWrite loc carry).getD []

/-- A transfer of one sector between a copy and its place on the disk. -/
def AtPlace (loc : Location) (t : Transfer) : Prop :=
  t.count = 1 ∧ (t.bx = adv0 ∧ t.lba = (dword loc.code advSec0).toNat ∨
    t.bx = adv1 ∧ t.lba = (dword loc.code advSec1).toNat)

variable {loc : Location} {t packet : Transfer} {carry : Nat → Bool}

theorem eq_of_mem_ebRetry {cx : Nat} (h : t ∈ ebRetry packet carry cx) : t = packet := by
  induction cx with
  | zero => exact absurd h List.not_mem_nil
  | succ cx ih =>
    rw [ebRetry] at h
    cases h with
    | head => rfl
    | tail _ hrest =>
      split_ifs at hrest with hc
      · exact ih hrest
      · exact absurd hrest List.not_mem_nil

/-- All calls for a copy have one packet, and there is one at least. -/
theorem mem_ebios {advDrive advOp : UInt8} {eax edx : UInt32} {bx : Nat} :
    t ∈ ebios advDrive advOp eax edx bx carry ↔
      t = ⟨0x40 ||| advOp, advDrive, 1, bx, eax.toNat + 2 ^ 32 * edx.toNat⟩ := by
  constructor
  · exact eq_of_mem_ebRetry
  · rintro rfl
    exact List.mem_cons_self

/-- The transfers of a call are at their places when both high halves are zero, whatever calls
fail. -/
theorem atPlace_advReadWrite {ah : UInt8} {carry : Retries} :
    (∀ t ∈ advReadWrite loc ah carry, AtPlace loc t) ↔
      dword loc.code advSec1 = 0 ∧ dword loc.code maxTransfer = 0 := by
  have hhigh (v : UInt32) : 2 ^ 32 * v.toNat = 0 ↔ v = 0 := by
    rw [← UInt32.toNat_inj]
    change _ ↔ v.toNat = 0
    omega
  have hne : adv0 ≠ adv1 := by decide
  simp only [advReadWrite, List.mem_append, mem_ebios]
  constructor
  · intro h
    obtain ⟨-, hfirst | hfirst⟩ := h _ (Or.inl rfl)
    · obtain ⟨-, hsecond | hsecond⟩ := h _ (Or.inr rfl)
      · exact absurd hsecond.1 hne.symm
      · exact ⟨(hhigh _).mp (Nat.add_eq_left.mp hfirst.2),
          (hhigh _).mp (Nat.add_eq_left.mp hsecond.2)⟩
    · exact absurd hfirst.1 hne
  · rintro ⟨hsec1, hmax⟩ t (rfl | rfl)
    · exact ⟨rfl, Or.inl ⟨rfl, Nat.add_eq_left.mpr ((hhigh _).mpr hsec1)⟩⟩
    · exact ⟨rfl, Or.inr ⟨rfl, Nat.add_eq_left.mpr ((hhigh _).mpr hmax)⟩⟩

/-- A session is at its places when its first read is. -/
theorem atPlace_session {read : Retries} {writes : List Retries} :
    (∀ t ∈ session loc read writes, AtPlace loc t) ↔
      dword loc.code advSec1 = 0 ∧ dword loc.code maxTransfer = 0 := by
  constructor
  · intro h
    exact atPlace_advReadWrite.mp fun t ht => h t (List.mem_append_left _ ht)
  · intro h t ht
    obtain hread | hwrite := List.mem_append.mp ht
    · exact atPlace_advReadWrite.mpr h t hread
    · obtain ⟨carry, -, hmem⟩ := List.mem_flatMap.mp hwrite
      rw [advWrite] at hmem
      split_ifs at hmem with h0 h1 hdrive
      · exact absurd hmem List.not_mem_nil
      · exact absurd hmem List.not_mem_nil
      · exact absurd hmem List.not_mem_nil
      · exact atPlace_advReadWrite.mpr h t hmem

/-- What `adv_init` leaves in the boot code. -/
theorem advInit_spec {code : Mem} {hidden : UInt32} {driveNumber : UInt8}
    (h : dword code advSec0 ≠ 0) : ∃ loc, advInit code hidden driveNumber = some loc ∧
      dword loc.code advSec0 = dword code advSec0 + hidden ∧
      dword loc.code advSec1 = dword code advSec1 + hidden ∧
      dword loc.code maxTransfer = dword code maxTransfer := by
  have hsame : dword (putDword code advSec0 (dword code advSec0 + hidden)) advSec1 =
      dword code advSec1 := dword_putDword_of_ne _ (Or.inr (by decide))
  refine ⟨_, if_neg h, ?_, ?_, ?_⟩ <;> dsimp only
  · rw [dword_putDword_of_ne _ (Or.inl (by decide)), dword_putDword]
  · rw [dword_putDword, hsame]
  · rw [dword_putDword_of_ne _ (Or.inr (by decide)), dword_putDword_of_ne _ (Or.inr (by decide))]

/-- Every transfer of every session is between a copy and the sector that its number says, exactly
when the number of the second one has become zero and the words behind it are zero. -/
theorem adv_transfers_iff (code : Mem) (hidden : UInt32) (driveNumber : UInt8)
    (h0 : dword code advSec0 ≠ 0) (read : Retries) (writes : List Retries) :
    ∃ loc, advInit code hidden driveNumber = some loc ∧
      ((∀ t ∈ session loc read writes, AtPlace loc t) ↔
        dword code advSec1 + hidden = 0 ∧ dword code maxTransfer = 0) := by
  obtain ⟨loc, hinit, -, hsec1, hmax⟩ := @advInit_spec code hidden driveNumber h0
  refine ⟨loc, hinit, ?_⟩
  rw [← hsec1, ← hmax]
  exact atPlace_session

/-- The first bytes of a boot code with the sectors 2048 and 2049 for the vector. -/
def patchedCode : Mem := fun a => [0, 8, 0, 0, 1, 8, 0, 0, 127, 0, 0, 0].getD a 0

theorem adv_transfers_iff_patched : ∃ loc, advInit patchedCode 63 0x80 = some loc ∧
    ((∀ t ∈ session loc ⟨fun _ => false, fun _ => false⟩ [], AtPlace loc t) ↔
      dword patchedCode advSec1 + 63 = 0 ∧ dword patchedCode maxTransfer = 0) :=
  adv_transfers_iff patchedCode 63 0x80 (by decide) ⟨fun _ => false, fun _ => false⟩ []

/-- The vector is read from sectors that the numbers do not say. -/
theorem adv_transfers_elsewhere :
    ¬ ∀ (code : Mem) (hidden : UInt32) (driveNumber : UInt8), dword code advSec0 ≠ 0 →
      dword code advSec1 ≠ 0 → ∀ (read : Retries) (writes : List Retries) (loc : Location),
        advInit code hidden driveNumber = some loc →
        ∀ t ∈ session loc read writes, AtPlace loc t := by
  intro h
  obtain ⟨loc, hinit, -, hsec1, -⟩ := @advInit_spec patchedCode 63 0x80 (by decide)
  have hplaces := h patchedCode 63 0x80 (by decide) (by decide) ⟨fun _ => false, fun _ => false⟩ []
    loc hinit
  have hzero := (atPlace_session.mp hplaces).1
  rw [hsec1] at hzero
  exact absurd hzero (by decide)

end Liigboot.Adv
