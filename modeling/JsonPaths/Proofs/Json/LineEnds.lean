/-
JsonPaths/Proofs/Json/LineEnds.lean

Control characters in the text of a value.

Strings have their control characters escaped, so the text of a value in a loose layout has
no control character but the line feeds of the layout (`clean_writeAt`).  Reading a file
turns carriage returns into line feeds; there are none to turn
(`unifyNewlines_of_clean`).
-/
import JsonPaths.Text.Newline
import JsonPaths.Proofs.Json.ReadValue

namespace JsonPaths

/-! ### Clean texts -/

/-- Without control characters except line feeds. -/
def Text.Clean (s : List Char) : Prop := ∀ c ∈ s, c = '\n' ∨ 32 ≤ c.toNat

-- the bounded quantifier is over the list, not over all characters
instance (s : List Char) : Decidable (Text.Clean s) :=
  List.decidableBAll (fun c => c = '\n' ∨ 32 ≤ c.toNat) s

namespace Text.Clean

variable {c : Char} {s t : List Char}

theorem append (hs : Clean s) (ht : Clean t) : Clean (s ++ t) := fun c hc =>
  (List.mem_append.1 hc).elim (hs c) (ht c)

theorem cons (hc : c = '\n' ∨ 32 ≤ c.toNat) (hs : Clean s) : Clean (c :: s) :=
  List.forall_mem_cons.2 ⟨hc, hs⟩

theorem of_isDigit (h : ∀ c ∈ s, c.isDigit = true) : Clean s := by
  intro c hc
  have hdigit := h c hc
  simp only [Char.isDigit, ge_iff_le, Bool.and_eq_true, decide_eq_true_eq] at hdigit
  have hle : '0'.toNat ≤ c.toNat := hdigit.1
  exact .inr (Nat.le_trans (by decide) hle)

end Text.Clean

theorem Text.unifyNewlines_of_clean {s : List Char} (h : Clean s) : unifyNewlines s = s := by
  induction s with
  | nil => rfl
  | cons c s ih =>
    obtain ⟨hc, hs⟩ := List.forall_mem_cons.1 h
    have hne : c ≠ '\r' := by
      rintro rfl
      exact absurd hc (by decide)
    rw [unifyNewlines.eq_3 _ _ (fun _ hr _ => hne hr) hne, ih hs]

namespace Json

open Text (Clean)

variable {l : Layout}

theorem IsSpacing.clean {b : List Char} (h : IsSpacing b) : Clean b := fun c hc =>
  (h c hc).elim (fun hs => .inr (hs ▸ by decide)) .inl

/-! ### Scalars -/

theorem clean_escapeChar (c : Char) : Clean (escapeChar c) := by
  unfold escapeChar
  split
  · next h => rcases h with rfl | rfl <;> decide
  split
  · decide
  split
  · decide
  split
  · decide
  split
  · decide
  split
  · decide
  split
  · next h =>
    have hhex : ∀ n < 32, Clean ('\\' :: 'u' :: Text.hex 4 n) := by decide +kernel
    exact hhex c.toNat h
  · next h => exact .cons (.inr (Nat.not_lt.1 h)) (by decide)

theorem clean_stringText (s : String) : Clean (stringText s) := by
  have hchars : Clean (s.toList.flatMap escapeChar) := by
    intro c hc
    obtain ⟨d, -, hd⟩ := List.mem_flatMap.1 hc
    exact clean_escapeChar d c hd
  exact .cons (by decide) (hchars.append (by decide))

theorem clean_signText (negative : Bool) : Clean (signText negative) := by
  cases negative <;> decide

theorem clean_intChars (n : Int) : Clean (Text.intChars n) := by
  rw [intChars_eq]
  exact (clean_signText _).append (.of_isDigit Text.isDigit_of_mem_toDigits)

theorem clean_zeros (k : Nat) : Clean (List.replicate k '0') := .of_isDigit isDigit_of_mem_zeros

theorem clean_positional {ds : List Char} (h : Clean ds) (point : Int) :
    Clean (Double.positional ds point) := by
  match point with
  | .negSucc k => exact .cons (by decide) (.cons (by decide) ((clean_zeros _).append h))
  | .ofNat 0 => exact .cons (by decide) (.cons (by decide) h)
  | .ofNat (k + 1) =>
    show Clean (if ds.length ≤ k + 1 then _ else _)
    split
    · exact (h.append (clean_zeros _)).append (by decide)
    · have htake : Clean (ds.take (k + 1)) := fun c hc => h c (List.mem_of_mem_take hc)
      have hdrop : Clean (ds.drop (k + 1)) := fun c hc => h c (List.mem_of_mem_drop hc)
      exact htake.append (.cons (by decide) hdrop)

theorem clean_scientific {ds : List Char} (h : Clean ds) (x : Int) :
    Clean (Double.scientific ds x) := by
  have hexp : Clean ('e' :: (if x < 0 then '-' else '+') ::
      Text.zeroPadded 2 (Nat.toDigits 10 x.natAbs)) := by
    have hsign : (if x < 0 then '-' else '+') = '\n' ∨
        32 ≤ (if x < 0 then '-' else '+' : Char).toNat := by
      split <;> decide
    exact .cons (by decide) (.cons hsign ((clean_zeros _).append
      (.of_isDigit Text.isDigit_of_mem_toDigits)))
  match ds with
  | [] => exact Clean.append (s := ['0']) (by decide) hexp
  | [d] => exact h.append hexp
  | d :: d' :: r =>
    obtain ⟨hd, hr⟩ := List.forall_mem_cons.1 h
    exact Clean.append (.cons hd (.cons (by decide) hr)) hexp

theorem clean_double (x : Double) : Clean (x.text specialNames) := by
  cases x with
  | nan => decide
  | infinite negative => cases negative <;> decide
  | finite negative e f =>
    refine (clean_signText negative).append ?_
    unfold Double.magnitudeText
    dsimp only
    split
    · decide
    split
    · exact clean_positional (.of_isDigit Double.isDigit_of_mem_significantDigits) _
    · exact clean_scientific (.of_isDigit Double.isDigit_of_mem_significantDigits) _

/-! ### Values -/

theorem clean_of_writeItems (hl : l.Loose) {depth : Nat} {items : List Json}
    (h : ∀ v ∈ items, ∀ s, writeAt l depth v = some s → Clean s) {s : List Char}
    (hs : writeItems l depth items = some s) : Clean s := by
  obtain ⟨b, hb, hspace⟩ := hl.comma
  have hcomma : Clean l.comma := hb ▸ .cons (by decide) hspace.clean
  induction items generalizing s with
  | nil =>
    rw [writeItems, Option.some.injEq] at hs
    subst hs
    decide
  | cons v vs ih =>
    obtain ⟨hv, hvs⟩ := List.forall_mem_cons.1 h
    cases vs with
    | nil =>
      rw [writeItems] at hs
      exact hv s hs
    | cons w vs =>
      obtain ⟨first, rest, hfirst, hrest, rfl⟩ := writeItems_cons_eq_some_iff.1 hs
      exact (hv first hfirst).append
        ((hcomma.append (hl.lineBreak depth).clean).append (ih hvs hrest))

theorem clean_of_writeMembers (hl : l.Loose) {depth : Nat} {ms : List (String × Json)}
    (h : ∀ p ∈ ms, ∀ s, writeAt l depth p.2 = some s → Clean s) {s : List Char}
    (hs : writeMembers l depth ms = some s) : Clean s := by
  obtain ⟨b, hb, hspace⟩ := hl.comma
  obtain ⟨b', hb', hspace'⟩ := hl.colon
  have hcomma : Clean l.comma := hb ▸ .cons (by decide) hspace.clean
  have hcolon : Clean l.colon := hb' ▸ .cons (by decide) hspace'.clean
  induction ms generalizing s with
  | nil =>
    rw [writeMembers, Option.some.injEq] at hs
    subst hs
    decide
  | cons p ms ih =>
    obtain ⟨k, v⟩ := p
    obtain ⟨hv, hms⟩ := List.forall_mem_cons.1 h
    cases ms with
    | nil =>
      obtain ⟨value, hvalue, rfl⟩ := writeMembers_singleton_eq_some_iff.1 hs
      exact (clean_stringText k).append (hcolon.append (hv value hvalue))
    | cons q ms =>
      obtain ⟨value, rest, hvalue, hrest, rfl⟩ := writeMembers_cons_eq_some_iff.1 hs
      exact (clean_stringText k).append ((hcolon.append (hv value hvalue)).append
        ((hcomma.append (hl.lineBreak depth).clean).append (ih hms hrest)))

/-- **The text of a value is clean**, whatever characters its strings have. -/
theorem clean_of_writeAt (hl : l.Loose) {depth : Nat} {v : Json} {s : List Char}
    (hs : writeAt l depth v = some s) : Clean s := by
  induction v using Value.ind generalizing depth s with
  | null =>
    rw [writeAt, Option.some.injEq] at hs
    subst hs
    decide
  | bool b =>
    rw [writeAt, Option.some.injEq] at hs
    subst hs
    cases b <;> decide
  | int n =>
    rw [writeAt] at hs
    obtain ⟨-, rfl⟩ := Text.intText?_eq_some_iff.1 hs
    exact clean_intChars n
  | double x =>
    rw [writeAt, Option.some.injEq] at hs
    exact hs ▸ clean_double x
  | string t =>
    rw [writeAt, Option.some.injEq] at hs
    exact hs ▸ clean_stringText t
  | array m items ih =>
    cases items with
    | nil =>
      rw [writeAt, Option.some.injEq] at hs
      subst hs
      decide
    | cons v vs =>
      obtain ⟨inner, hinner, rfl⟩ := writeAt_array_eq_some_iff.1 hs
      have hitems := clean_of_writeItems hl (fun w hw s => ih w hw) hinner
      exact .cons (by decide) ((((hl.lineBreak _).clean.append hitems).append
        (hl.lineBreak depth).clean).append (by decide))
  | object m ms ih =>
    cases ms with
    | nil =>
      rw [writeAt, Option.some.injEq] at hs
      subst hs
      decide
    | cons p ms =>
      obtain ⟨inner, hinner, rfl⟩ := writeAt_object_eq_some_iff.1 hs
      have hmembers := clean_of_writeMembers hl (fun q hq s => ih q hq) hinner
      exact .cons (by decide) ((((hl.lineBreak _).clean.append hmembers).append
        (hl.lineBreak depth).clean).append (by decide))

end Json

end JsonPaths
