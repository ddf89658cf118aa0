import Liigboot.Comcore.Vsnprintf

/-!
# Runs of the formatter

The states of `vsnprintf` go over a directive as the grammar does. What is in the buffer follows
the text that the format stands for.
-/

namespace Liigboot.Comcore

variable {mem : Nat → UInt8} {buffer : Nat} {n : UInt32} {text : List UInt8} {out : Out}
  {s : Vs} {cs : List UInt8} {ch : UInt8}

/-! ## States -/

/-- The output and the stores of `%n` behind some characters of the format. -/
def Vs.run (n : UInt32) (cs : List UInt8) (s : Vs) : Option (Out × List (Rank × UInt32)) :=
  (cs.foldlM (Vs.step n) s).map fun s => (s.out, s.counts)

variable {flags : Flags} {width prec : Int} {r r' : Rendered}

/-- Output into what is left of the buffer. -/
theorem Printed.append {rest : UInt32} {xs : List UInt8} {sz : Out}
    (h : Printed mem buffer n text out) (hrest : rest.toNat = n.toNat - text.length)
    (hsz : Printed out.mem out.q rest xs sz) (hlen : (text ++ xs).length < 2 ^ 32) :
    Printed mem buffer n (text ++ xs) ⟨sz.mem, out.q + sz.o.toNat, out.o + sz.o⟩ := by
  constructor
  · rw [UInt32.toNat_add, h.count, hsz.count, ← List.length_append, Nat.mod_eq_of_lt hlen]
  · intro hle
    rw [List.length_append] at hle
    dsimp only
    rw [hsz.count, h.place (by omega), List.length_append, Nat.add_assoc]
  · dsimp only
    rw [hsz.mem, hrest, window_append, h.mem]
    by_cases hle : text.length ≤ n.toNat
    · rw [h.place hle]
    · rw [Nat.sub_eq_zero_of_le (Nat.le_of_not_le hle), window_zero, window_zero]

/-- A number that is printed is behind the text so far, as far as the buffer goes. -/
theorem printInteger_printed {base : Nat} {value : UInt64} (hbase : 1 < base)
    (h : Printed mem buffer n text out)
    (hlen : (text ++ intText value flags base width prec).length < 2 ^ 32) :
    Printed mem buffer n (text ++ intText value flags base width prec)
      (printInteger n value flags base width prec out) := by
  have hroom : out.o < n ↔ text.length < n.toNat := by rw [UInt32.lt_iff_toNat_lt, h.count]
  have hrest : (if out.o < n then n - out.o else 0 : UInt32).toNat = n.toNat - text.length := by
    split
    next hlt => rw [UInt32.toNat_sub_of_le _ _ (UInt32.le_of_lt hlt), h.count]
    next hge =>
      rw [UInt32.toNat_zero, Nat.sub_eq_zero_of_le (Nat.not_lt.mp (mt hroom.mpr hge))]
  rw [List.length_append] at hlen
  have hint : Printed out.mem out.q (if out.o < n then n - out.o else 0)
      (intText value flags base width prec) _ := formatInt_printed hbase (by omega)
  exact h.append hrest hint (by rwa [List.length_append])

/-- The characters of a string that are printed. -/
theorem shown_eq (sarg : List UInt8) (hprec : -1 ≤ prec) :
    (if prec ≠ -1 ∧ sarg.length > prec then prec else sarg.length) =
        ((shown sarg prec).length : Int) ∧
      sarg.take (shown sarg prec).length = shown sarg prec := by
  unfold shown
  by_cases hall : prec = -1
  · simp [hall]
  · rw [if_neg hall, List.length_take]
    constructor
    · split_ifs <;> omega
    · simp

/-- So is a string. -/
theorem printString_printed {sarg : List UInt8} (hprec : -1 ≤ prec)
    (h : Printed mem buffer n text out)
    (hlen : (text ++ stringText sarg flags width prec).length < 2 ^ 32) :
    Printed mem buffer n (text ++ stringText sarg flags width prec)
      (printString n sarg flags width prec out) := by
  obtain ⟨hslen, htake⟩ := shown_eq sarg hprec
  simp only [printString, hslen, Int.toNat_natCast, htake, stringText] at hlen ⊢
  generalize shown sarg prec = chars at *
  cases hminus : flags.minus with
  | true =>
    simp only [hminus, if_true, Bool.not_true, Bool.and_false, Bool.false_eq_true, if_false,
      Bool.and_true, List.length_append, List.length_replicate] at hlen ⊢
    have hchars : Printed mem buffer n (text ++ chars) _ := h.emitAll (by omega)
    have hpad : Printed mem buffer n _ (Out.pad n 0x20 width chars.length _) :=
      hchars.pad (by rw [List.length_append]; omega)
    rw [Out.pad_of_gt le_rfl, ← List.append_assoc]
    exact hpad
  | false =>
    simp only [hminus, if_false, Bool.not_false, Bool.and_true, Bool.false_eq_true,
      Bool.and_false, List.length_append, List.length_replicate] at hlen ⊢
    have hpad : Printed mem buffer n _
      (Out.pad n (if flags.zero then 0x30 else 0x20) width chars.length _) := h.pad (by omega)
    rw [Out.pad_of_gt le_rfl, ← List.append_assoc]
    exact hpad.emitAll (by rw [List.length_append, List.length_replicate]; omega)

/-! ## Directives -/

/-- The variables that stand for what has been rendered. -/
structure Follows (mem : Nat → UInt8) (buffer : Nat) (n : UInt32) (r : Rendered) (s : Vs) :
    Prop where
  printed : Printed mem buffer n r.text s.out
  ap : s.ap = r.ap
  counts : s.counts = r.counts

/-- What the printing of an item rests on. -/
def Item.Ok : Item → Prop
  | .integer _ _ base _ => 1 < base
  | .string _ prec => -1 ≤ prec
  | _ => True

/-- An item prints what it stands for. -/
theorem Follows.print {item : Item} (h : Follows mem buffer n r s) (hok : item.Ok)
    (hlen : (item.render s.toDirective r).text.length < 2 ^ 32) :
    Follows mem buffer n (item.render s.toDirective r) (s.print n item) := by
  cases item with
  | integer val flags base prec =>
    exact ⟨printInteger_printed hok h.printed hlen, h.ap, h.counts⟩
  | string sarg prec => exact ⟨printString_printed hok h.printed hlen, h.ap, h.counts⟩
  | count rank =>
    have ho : s.out.o = UInt32.ofNat r.text.length := by
      rw [← h.printed.count, UInt32.ofNat_toNat]
    refine ⟨h.printed, h.ap, ?_⟩
    simp [Item.render, Vs.print, h.counts, ho]
  | other ch =>
    have hone : r.text.length + 1 < 2 ^ 32 := by simpa [Item.render] using hlen
    exact ⟨h.printed.emit hone, h.ap, h.counts⟩

/-- Flags of either. -/
def Flags.or (f g : Flags) : Flags :=
  ⟨f.zero || g.zero, f.minus || g.minus, f.plus || g.plus, f.tick || g.tick,
    f.space || g.space, f.hash || g.hash, f.signed || g.signed, f.upper || g.upper⟩

/-- What is printed only grows. -/
theorem Item.render_grows (d : Directive) (r : Rendered) (item : Item) :
    r.text.length ≤ (item.render d r).text.length := by
  cases item <;> simp [Item.render]

/-- The text gets longer by a directive behind its modifiers. -/
theorem renderModifiers_grows {d : Directive} {rest : List UInt8}
    (h : renderModifiers cs d r = some (r', rest)) : r.text.length ≤ r'.text.length := by
  unfold renderModifiers at h
  split at h
  next => cases h; rfl
  next =>
    obtain ⟨s, -, heq⟩ := Option.map_eq_some_iff.mp h
    cases heq
    exact Item.render_grows d { r with ap := s.2 } s.1

/-- The text gets longer by a directive. -/
theorem renderDirective_grows {rest : List UInt8}
    (h : renderDirective cs r = some (r', rest)) : r.text.length ≤ r'.text.length := by
  unfold renderDirective renderWidth renderPrec at h
  obtain ⟨s, -, h⟩ := Option.bind_eq_some_iff.mp h
  split at h
  · obtain ⟨s', -, h⟩ := Option.bind_eq_some_iff.mp h
    have hgrows := renderModifiers_grows h
    exact hgrows
  · have hgrows := renderModifiers_grows h
    exact hgrows

/-- A directive is rendered in front of what follows it. -/
theorem render_directive :
    render (0x25 :: cs) r = (renderDirective cs r).bind fun s => render s.2 s.1 := by
  rw [render, if_pos rfl]
  split
  next hnone => rw [hnone, Option.bind_none]
  next hsome => rw [hsome, Option.bind_some]

/-- Other characters are copied. -/
theorem render_char (h : ch ≠ 0x25) :
    render (ch :: cs) r = render cs { r with text := r.text ++ [ch] } := by
  rw [render, if_neg h]

/-- The text only gets longer. -/
theorem render_grows (h : render cs r = some r') : r.text.length ≤ r'.text.length := by
  induction hk : cs.length using Nat.strong_induction_on generalizing cs r with
  | _ k ih =>
    cases cs with
    | nil =>
      rw [render] at h
      cases h
      rfl
    | cons ch cs =>
      rw [List.length_cons] at hk
      by_cases hch : ch = 0x25
      · subst hch
        rw [render_directive] at h
        obtain ⟨⟨r₁, rest⟩, hdir, h⟩ := Option.bind_eq_some_iff.mp h
        have hrest := renderDirective_length hdir
        exact (renderDirective_grows hdir).trans (ih rest.length (by omega) h rfl)
      · rw [render_char hch] at h
        have hrest := ih cs.length (by omega) h rfl
        rw [List.length_append] at hrest
        omega

end Liigboot.Comcore
