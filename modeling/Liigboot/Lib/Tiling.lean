import Mathlib.Data.List.Chain
import Mathlib.Data.List.Nodup
import Mathlib.Tactic.Common

/-!
# Pieces that tile a range

Pieces with an address and a length tile a range of addresses when each begins
where the one before it ends. Tiled pieces are in order and apart from each other;
cutting one in two or joining two neighbours keeps the tiling.
-/

namespace Liigboot

variable {β : Type*} {addr len : β → Nat}

/-- `bs` cover the addresses from `lo` up to `hi`, one piece behind the other. -/
def Tiles (addr len : β → Nat) : Nat → List β → Nat → Prop
  | lo, [], hi => lo = hi
  | lo, b :: bs, hi => addr b = lo ∧ Tiles addr len (lo + len b) bs hi

@[simp] theorem tiles_nil {lo hi : Nat} : Tiles addr len lo [] hi ↔ lo = hi := Iff.rfl

@[simp] theorem tiles_cons {lo hi : Nat} {b : β} {bs : List β} :
    Tiles addr len lo (b :: bs) hi ↔ addr b = lo ∧ Tiles addr len (lo + len b) bs hi := Iff.rfl

theorem tiles_append {lo hi : Nat} {xs ys : List β} :
    Tiles addr len lo (xs ++ ys) hi ↔
      ∃ mid, Tiles addr len lo xs mid ∧ Tiles addr len mid ys hi := by
  induction xs generalizing lo with
  | nil =>
    simp only [List.nil_append, tiles_nil]
    exact ⟨fun h => ⟨lo, rfl, h⟩, fun ⟨_, heq, h⟩ => heq ▸ h⟩
  | cons x xs ih =>
    simp only [List.cons_append, tiles_cons, ih]
    constructor
    · rintro ⟨hx, mid, h1, h2⟩
      exact ⟨mid, ⟨hx, h1⟩, h2⟩
    · rintro ⟨mid, ⟨hx, h1⟩, h2⟩
      exact ⟨hx, mid, h1, h2⟩

theorem Tiles.le {lo hi : Nat} {bs : List β} (h : Tiles addr len lo bs hi) : lo ≤ hi := by
  induction bs generalizing lo with
  | nil => exact Nat.le_of_eq h
  | cons b bs ih => exact (Nat.le_add_right lo _).trans (ih h.2)

/-- A tiling around one of its pieces. -/
theorem tiles_middle {lo hi : Nat} {xs ys : List β} {b : β} :
    Tiles addr len lo (xs ++ b :: ys) hi ↔
      Tiles addr len lo xs (addr b) ∧ Tiles addr len (addr b + len b) ys hi := by
  rw [tiles_append]
  constructor
  · rintro ⟨mid, h1, rfl, h2⟩
    exact ⟨h1, h2⟩
  · rintro ⟨h1, h2⟩
    exact ⟨addr b, h1, rfl, h2⟩

/-- Every piece lies in the range. -/
theorem Tiles.mem_le {lo hi : Nat} {bs : List β} (h : Tiles addr len lo bs hi) {b : β}
    (hb : b ∈ bs) : lo ≤ addr b ∧ addr b + len b ≤ hi := by
  obtain ⟨xs, ys, rfl⟩ := List.append_of_mem hb
  obtain ⟨h1, h2⟩ := tiles_middle.mp h
  exact ⟨h1.le, h2.le⟩

/-- Pieces follow each other in address order, without overlap. -/
theorem Tiles.pairwise {lo hi : Nat} {bs : List β} (h : Tiles addr len lo bs hi) :
    bs.Pairwise fun b c => addr b + len b ≤ addr c := by
  induction bs generalizing lo with
  | nil => exact List.Pairwise.nil
  | cons b bs ih =>
    obtain ⟨rfl, h⟩ := h
    exact List.Pairwise.cons (fun c hc => (h.mem_le hc).1) (ih h)

/-- Pieces of at least `k` addresses each are few. -/
theorem Tiles.length_mul_le {lo hi k : Nat} {bs : List β} (h : Tiles addr len lo bs hi)
    (hk : ∀ b ∈ bs, k ≤ len b) : lo + bs.length * k ≤ hi := by
  induction bs generalizing lo with
  | nil =>
    rw [List.length_nil, Nat.zero_mul]
    exact Nat.le_of_eq h
  | cons b bs ih =>
    have hrest := ih h.2 fun c hc => hk c (List.mem_cons_of_mem b hc)
    have hb := hk b List.mem_cons_self
    rw [List.length_cons, Nat.succ_mul]
    omega

/-- Pieces of one length, one behind the other. -/
theorem tiles_range {f : Nat → β} {lo k n : Nat}
    (h : ∀ i < n, addr (f i) = lo + i * k ∧ len (f i) = k) :
    Tiles addr len lo ((List.range n).map f) (lo + n * k) := by
  induction n with
  | zero => exact (Nat.add_zero lo).symm.trans (congrArg _ (Nat.zero_mul k).symm)
  | succ n ih =>
    rw [List.range_succ, List.map_append, List.map_singleton, tiles_append]
    obtain ⟨haddr, hlen⟩ := h n (Nat.lt_succ_self n)
    refine ⟨_, ih fun i hi => h i (Nat.lt_succ_of_lt hi), haddr, ?_⟩
    rw [tiles_nil, hlen, Nat.succ_mul, Nat.add_assoc]

/-- No piece begins inside another one. -/
theorem Tiles.inside_notMem {lo hi : Nat} {bs : List β} (h : Tiles addr len lo bs hi) {b : β}
    (hb : b ∈ bs) {a : Nat} (hlo : addr b < a) (hhi : a < addr b + len b) : a ∉ bs.map addr := by
  obtain ⟨xs, ys, rfl⟩ := List.append_of_mem hb
  obtain ⟨hfront, hback⟩ := tiles_middle.mp h
  intro ha
  obtain ⟨c, hc, rfl⟩ := List.mem_map.mp ha
  rcases List.mem_append.mp hc with hc | hc
  · have hle := hfront.mem_le hc
    omega
  · rcases List.mem_cons.mp hc with rfl | hc
    · exact Nat.lt_irrefl _ hlo
    · have hle := hback.mem_le hc
      omega

/-- Pieces that tile the same range can stand for each other. -/
theorem Tiles.replace {lo hi : Nat} {xs old new ys : List β}
    (h : Tiles addr len lo (xs ++ old ++ ys) hi)
    (hnew : ∀ lo hi, Tiles addr len lo old hi → Tiles addr len lo new hi) :
    Tiles addr len lo (xs ++ new ++ ys) hi := by
  obtain ⟨mid', h12, h3⟩ := tiles_append.mp h
  obtain ⟨mid, h1, h2⟩ := tiles_append.mp h12
  exact tiles_append.mpr ⟨mid', tiles_append.mpr ⟨mid, h1, hnew _ _ h2⟩, h3⟩

/-- Pieces that are not empty have distinct addresses. -/
theorem Tiles.nodup {lo hi : Nat} {bs : List β} (h : Tiles addr len lo bs hi)
    (hpos : ∀ b ∈ bs, 0 < len b) : (bs.map addr).Nodup := by
  rw [List.nodup_iff_pairwise_ne, List.pairwise_map]
  refine h.pairwise.imp_of_mem fun {b c} hb _ hle => ?_
  have hlen := hpos b hb
  omega

/-- Pieces that are not empty and share an address are the same piece. -/
theorem Tiles.eq_of_addr {lo hi : Nat} {bs : List β} (h : Tiles addr len lo bs hi)
    (hpos : ∀ b ∈ bs, 0 < len b) {b c : β} (hb : b ∈ bs) (hc : c ∈ bs) (heq : addr b = addr c) :
    b = c :=
  List.inj_on_of_nodup_map (h.nodup hpos) hb hc heq

end Liigboot
