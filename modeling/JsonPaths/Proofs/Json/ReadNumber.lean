/-
JsonPaths/Proofs/Json/ReadNumber.lean

Numbers read back.

A number is read up to the first character that cannot prolong it (`Closes`), in three
parts: the whole digits, the fraction and the exponent.  The text of a whole number has the
first part only and is read as this number, if it is not too long (`readPlain_intChars`).
The text of a double has one of the other parts or is a word, and is read as this double,
whichever way its digits are laid out (`readPlain_double`).
-/
import JsonPaths.Json.Reader
import JsonPaths.Json.Writer
import JsonPaths.Proofs.Double.Shortest

namespace JsonPaths.Json

open Double (ofDecimal positional scientific magnitudeText)

/-- What follows a number begins with no character that would prolong it. -/
def Closes (r : List Char) : Prop :=
  ∀ c ∈ r.head?, c.isDigit = false ∧ c ≠ '.' ∧ c ≠ 'e' ∧ c ≠ 'E'

/-- The sign in front of the digits of a number. -/
def signText (negative : Bool) : List Char := if negative then ['-'] else []

/-! ### The parts of a number -/

/-- Digits that can stand before the point: a zero alone, or a run that starts with another
digit. -/
inductive IsWhole : List Char → Prop
  | zero : IsWhole ['0']
  | run {d : Char} {ds : List Char} : d ≠ '0' → (∀ c ∈ d :: ds, c.isDigit = true) →
      IsWhole (d :: ds)

variable {negative : Bool} {whole fraction ds t u r : List Char} {exponent : Option Int}

theorem IsWhole.isDigit (h : IsWhole ds) : ∀ c ∈ ds, c.isDigit = true := by
  cases h with
  | zero => exact List.forall_mem_singleton.2 rfl
  | run _ hds => exact hds

theorem IsWhole.ne_nil (h : IsWhole ds) : ds ≠ [] := by
  cases h <;> exact List.cons_ne_nil _ _

theorem isWhole_toDigits (n : Nat) : IsWhole (Nat.toDigits 10 n) := by
  by_cases hn : n = 0
  · rw [hn]
    exact .zero
  · obtain ⟨d, ds, h, hd⟩ := Text.head_toDigits hn
    rw [h]
    exact .run hd (h ▸ Text.isDigit_of_mem_toDigits)

theorem readWhole_append (h : IsWhole whole) (hr : ∀ c ∈ r.head?, c.isDigit = false) :
    readWhole (whole ++ r) = (whole, r) := by
  cases h with
  | zero => rfl
  | @run d ds hd hds =>
    have hspan := Text.span_digits hds hr
    unfold readWhole
    split
    · next h =>
      rw [List.cons_append, List.cons.injEq] at h
      exact absurd h.1 hd
    · exact hspan

theorem readFraction_point (hne : fraction ≠ []) (hf : ∀ c ∈ fraction, c.isDigit = true)
    (hr : ∀ c ∈ r.head?, c.isDigit = false) :
    readFraction ('.' :: (fraction ++ r)) = (fraction, r) := by
  have htake := (Text.cut_append hf hr).1
  have hempty : fraction.isEmpty = false := by simpa using hne
  rw [readFraction, htake, hempty]
  exact Text.span_digits hf hr

theorem readFraction_none (hr : ∀ c ∈ r.head?, c ≠ '.') : readFraction r = ([], r) := by
  unfold readFraction
  split
  · exact absurd rfl (hr '.' rfl)
  · rfl

theorem readExponent_none (hr : ∀ c ∈ r.head?, c ≠ 'e' ∧ c ≠ 'E') :
    readExponent r = (none, r) := by
  cases r with
  | nil => rfl
  | cons c r =>
    obtain ⟨he, hE⟩ := hr c rfl
    simp [readExponent, he, hE]

theorem readExponent_some (negative : Bool) (hne : ds ≠ []) (hds : ∀ c ∈ ds, c.isDigit = true)
    (hr : ∀ c ∈ r.head?, c.isDigit = false) :
    readExponent ('e' :: (if negative then '-' else '+') :: (ds ++ r)) =
      (some (Text.signed negative ds), r) := by
  have hspan := Text.span_digits hds hr
  have hempty : ds.isEmpty = false := by simpa using hne
  cases negative with
  | true =>
    show readExponent ('e' :: '-' :: (ds ++ r)) = _
    simp only [readExponent, hspan, hempty, true_or, if_true, Bool.false_eq_true, if_false]
  | false =>
    show readExponent ('e' :: '+' :: (ds ++ r)) = _
    simp only [readExponent, hspan, hempty, true_or, if_true, Bool.false_eq_true, if_false]

/-- What a number is read as, once its whole digits have been cut off. -/
theorem readNumber_eq (h : IsWhole whole) (ht : ∀ c ∈ t.head?, c.isDigit = false)
    (hf : readFraction t = (fraction, u)) (he : readExponent u = (exponent, r)) :
    readNumber (signText negative ++ (whole ++ t)) =
      if fraction.isEmpty && exponent.isNone then
        if Text.digitLimit < whole.length then .error (.tooManyDigits whole.length)
        else .ok (.int (Text.signed negative whole), r)
      else .ok (.double (ofDecimal negative (Nat.ofDigitChars 10 (whole ++ fraction) 0)
        (exponent.getD 0 - fraction.length)), r) := by
  have hempty : whole.isEmpty = false := by simpa using h.ne_nil
  cases negative with
  | true =>
    show readNumber ('-' :: (whole ++ t)) = _
    unfold readNumber
    simp only [readWhole_append h ht, hempty, hf, he, Bool.false_eq_true, if_false]
  | false =>
    show readNumber (whole ++ t) = _
    have hminus : ∀ r, whole ++ t ≠ '-' :: r := by
      intro r heq
      obtain ⟨d, ds, rfl⟩ := List.exists_cons_of_ne_nil h.ne_nil
      have hd := h.isDigit d List.mem_cons_self
      rw [(List.cons.inj heq).1] at hd
      exact absurd hd (by decide)
    unfold readNumber
    split
    next neg s hs =>
    split at hs
    · next heq => exact absurd heq (hminus _)
    · cases hs
      simp only [readWhole_append h ht, hempty, hf, he, Bool.false_eq_true, if_false]

theorem Closes.isDigit (h : Closes r) : ∀ c ∈ r.head?, c.isDigit = false :=
  fun c hc => (h c hc).1

theorem Closes.readFraction (h : Closes r) : readFraction r = ([], r) :=
  readFraction_none fun c hc => (h c hc).2.1

theorem Closes.readExponent (h : Closes r) : readExponent r = (none, r) :=
  readExponent_none fun c hc => (h c hc).2.2

/-! ### Whole numbers -/

theorem intChars_eq (n : Int) :
    Text.intChars n = signText (decide (n < 0)) ++ Nat.toDigits 10 n.natAbs := by
  by_cases h : n < 0 <;> simp [Text.intChars, signText, h]

theorem readNumber_intChars {n : Int}
    (hn : (Nat.toDigits 10 n.natAbs).length ≤ Text.digitLimit) (hr : Closes r) :
    readNumber (Text.intChars n ++ r) = .ok (.int n, r) := by
  rw [intChars_eq, List.append_assoc,
    readNumber_eq (isWhole_toDigits _) hr.isDigit hr.readFraction hr.readExponent]
  simp only [List.isEmpty_nil, Option.isNone_none, Bool.and_self, if_true, if_neg hn.not_gt,
    Text.signed_toDigits]

/-! ### Doubles -/

/-- A number with a point is a double. -/
theorem readNumber_point (negative : Bool) (hw : IsWhole whole) (hne : fraction ≠ [])
    (hf : ∀ c ∈ fraction, c.isDigit = true) (hr : Closes r) :
    readNumber (signText negative ++ (whole ++ '.' :: (fraction ++ r))) =
      .ok (.double (ofDecimal negative (Nat.ofDigitChars 10 (whole ++ fraction) 0)
        (-fraction.length)), r) := by
  have hempty : fraction.isEmpty = false := by simpa using hne
  have hpoint : ∀ c ∈ ('.' :: (fraction ++ r)).head?, c.isDigit = false := by
    rintro c ⟨⟩
    decide
  rw [readNumber_eq hw hpoint (readFraction_point hne hf hr.isDigit) hr.readExponent]
  simp only [hempty, Bool.false_and, Bool.false_eq_true, if_false, Option.getD_none, zero_sub]

/-- Digits of which the first is no zero. -/
structure Significant (ds : List Char) : Prop where
  digit : ∀ c ∈ ds, c.isDigit = true
  head : ∃ d r, ds = d :: r ∧ d ≠ '0'

theorem Significant.ne_nil (h : Significant ds) : ds ≠ [] := by
  obtain ⟨d, r, rfl, -⟩ := h.head
  exact List.cons_ne_nil d r

theorem Significant.isWhole_append (h : Significant ds) (ht : ∀ c ∈ t, c.isDigit = true) :
    IsWhole (ds ++ t) := by
  obtain ⟨d, r, rfl, hd⟩ := h.head
  have hall : ∀ c ∈ (d :: r) ++ t, c.isDigit = true := fun c hc =>
    (List.mem_append.1 hc).elim (h.digit c) (ht c)
  exact .run hd hall

theorem isDigit_of_mem_zeros {k : Nat} : ∀ c ∈ List.replicate k '0', c.isDigit = true := by
  intro c hc
  rw [List.eq_of_mem_replicate hc]
  rfl

theorem Significant.isWhole_take (h : Significant ds) (k : Nat) :
    IsWhole (ds.take (k + 1)) := by
  obtain ⟨d, r, rfl, hd⟩ := h.head
  exact .run hd fun c hc => h.digit c (List.mem_of_mem_take (i := k + 1) hc)

/-- Digits behind the point, with zeros between. -/
theorem readNumber_behind (negative : Bool) (h : Significant ds) (k : Nat) (hr : Closes r) :
    readNumber (signText negative ++ ('0' :: '.' :: (List.replicate k '0' ++ ds ++ r))) =
      .ok (.double (ofDecimal negative (Nat.ofDigitChars 10 ds 0) (-k - ds.length)), r) := by
  have hne : List.replicate k '0' ++ ds ≠ [] := List.append_ne_nil_of_right_ne_nil _ h.ne_nil
  have hf : ∀ c ∈ List.replicate k '0' ++ ds, c.isDigit = true := fun c hc =>
    (List.mem_append.1 hc).elim (isDigit_of_mem_zeros c) (h.digit c)
  have hvalue : Nat.ofDigitChars 10 (['0'] ++ (List.replicate k '0' ++ ds)) 0 =
      Nat.ofDigitChars 10 ds 0 := Text.ofDigitChars_zeros (k + 1) ds
  have hexp : -((List.replicate k '0' ++ ds).length : Int) = -k - ds.length := by
    rw [List.length_append, List.length_replicate]
    omega
  have hread := readNumber_point negative .zero hne hf hr
  rw [hvalue, hexp] at hread
  exact hread

/-- Digits before the point, with zeros between; neither these nor the zero behind the point
add to the number. -/
theorem readNumber_before (negative : Bool) (h : Significant ds) (k : Nat) (hr : Closes r) :
    readNumber (signText negative ++ (ds ++ List.replicate k '0' ++ ['.', '0'] ++ r)) =
      .ok (.double (ofDecimal negative (Nat.ofDigitChars 10 ds 0) k), r) := by
  have hw : IsWhole (ds ++ List.replicate k '0') := h.isWhole_append isDigit_of_mem_zeros
  have hvalue : Nat.ofDigitChars 10 (ds ++ List.replicate k '0' ++ ['0']) 0 =
      Nat.ofDigitChars 10 ds 0 * 10 ^ (k + 1) := by
    rw [List.append_assoc, ← List.replicate_succ', Text.ofDigitChars_append_zeros]
  have hexp : -(['0'].length : Int) + ((k + 1 : Nat) : Int) = k := by
    rw [List.length_singleton]
    omega
  have hread := readNumber_point negative hw (List.cons_ne_nil '0' [])
    (isDigit_of_mem_zeros (k := 1)) hr
  rw [hvalue, Double.ofDecimal_mul_pow, hexp] at hread
  rw [List.append_assoc]
  exact hread

/-- Digits with the point among them. -/
theorem readNumber_among (negative : Bool) (h : Significant ds) {k : Nat}
    (hk : k + 1 < ds.length) (hr : Closes r) :
    readNumber (signText negative ++ (ds.take (k + 1) ++ '.' :: ds.drop (k + 1) ++ r)) =
      .ok (.double (ofDecimal negative (Nat.ofDigitChars 10 ds 0)
        ((k + 1 : Nat) - ds.length)), r) := by
  have hne : ds.drop (k + 1) ≠ [] := by
    rw [ne_eq, List.drop_eq_nil_iff]
    omega
  have hf : ∀ c ∈ ds.drop (k + 1), c.isDigit = true := fun c hc =>
    h.digit c (List.mem_of_mem_drop hc)
  have hexp : -((ds.drop (k + 1)).length : Int) = (k + 1 : Nat) - ds.length := by
    rw [List.length_drop]
    omega
  have hread := readNumber_point negative (h.isWhole_take k) hne hf hr
  rw [List.take_append_drop, hexp] at hread
  rw [List.append_assoc, List.cons_append]
  exact hread

/-- Digits with a point in front, among or behind them are read as the number that they
write. -/
theorem readNumber_positional (negative : Bool) (h : Significant ds) (point : Int)
    (hr : Closes r) :
    readNumber (signText negative ++ (positional ds point ++ r)) =
      .ok (.double (ofDecimal negative (Nat.ofDigitChars 10 ds 0) (point - ds.length)), r) := by
  match point with
  | .negSucc k => exact readNumber_behind negative h (k + 1) hr
  | .ofNat 0 => exact readNumber_behind negative h 0 hr
  | .ofNat (k + 1) =>
    by_cases hlong : ds.length ≤ k + 1
    · have htext : positional ds (.ofNat (k + 1)) =
          ds ++ List.replicate (k + 1 - ds.length) '0' ++ ['.', '0'] := if_pos hlong
      rw [htext, readNumber_before negative h _ hr, Int.ofNat_sub hlong]
      rfl
    · have htext : positional ds (.ofNat (k + 1)) =
          ds.take (k + 1) ++ '.' :: ds.drop (k + 1) := if_neg hlong
      rw [htext]
      exact readNumber_among negative h (Nat.not_le.1 hlong) hr

/-- The digits after the `e` write the exponent. -/
theorem signed_zeroPadded (x : Int) :
    Text.signed (decide (x < 0)) (Text.zeroPadded 2 (Nat.toDigits 10 x.natAbs)) = x := by
  have h := Text.signed_toDigits x
  unfold Text.signed at h ⊢
  rw [Text.zeroPadded, Text.ofDigitChars_zeros]
  exact h

theorem readExponent_signed (x : Int) (hr : Closes r) :
    readExponent ('e' :: (if x < 0 then '-' else '+') ::
        (Text.zeroPadded 2 (Nat.toDigits 10 x.natAbs) ++ r)) = (some x, r) := by
  have hne : Text.zeroPadded 2 (Nat.toDigits 10 x.natAbs) ≠ [] := by
    rw [Text.zeroPadded, ne_eq, List.append_eq_nil_iff, not_and]
    exact fun _ => Nat.toDigits_ne_nil
  have hds : ∀ c ∈ Text.zeroPadded 2 (Nat.toDigits 10 x.natAbs), c.isDigit = true := fun c hc =>
    (List.mem_append.1 hc).elim (isDigit_of_mem_zeros c) (Text.isDigit_of_mem_toDigits c)
  have hread := readExponent_some (decide (x < 0)) hne hds hr.isDigit
  rw [signed_zeroPadded] at hread
  simpa only [decide_eq_true_eq] using hread

/-- One digit before the point and an exponent are read as the number that they write. -/
theorem readNumber_scientific (negative : Bool) (h : Significant ds) (x : Int)
    (hr : Closes r) :
    readNumber (signText negative ++ (scientific ds x ++ r)) =
      .ok (.double (ofDecimal negative (Nat.ofDigitChars 10 ds 0) (x + 1 - ds.length)), r) := by
  have hexp := readExponent_signed x hr
  generalize htail : 'e' :: (if x < 0 then '-' else '+') ::
    (Text.zeroPadded 2 (Nat.toDigits 10 x.natAbs) ++ r) = t at hexp
  have ht : ∀ c ∈ t.head?, c.isDigit = false ∧ c ≠ '.' := by
    rw [← htail]
    rintro c ⟨⟩
    decide
  match ds, h with
  | [], h => exact absurd rfl h.ne_nil
  | [d], h =>
    have hw : IsWhole [d] := h.isWhole_append (t := []) (by simp)
    have htext : scientific [d] x ++ r = [d] ++ t := by
      rw [← htail]
      simp [scientific]
    rw [htext, readNumber_eq hw (fun c hc => (ht c hc).1)
      (readFraction_none fun c hc => (ht c hc).2) hexp]
    simp
  | d :: d' :: ds, h =>
    have hw : IsWhole [d] := h.isWhole_take 0
    have hf : ∀ c ∈ d' :: ds, c.isDigit = true := fun c hc =>
      h.digit c (List.mem_cons_of_mem d hc)
    have htext : scientific (d :: d' :: ds) x ++ r = [d] ++ '.' :: ((d' :: ds) ++ t) := by
      rw [← htail]
      simp [scientific]
    have hpoint : ∀ c ∈ ('.' :: ((d' :: ds) ++ t)).head?, c.isDigit = false := by
      rintro c ⟨⟩
      decide
    rw [htext, readNumber_eq hw hpoint
      (readFraction_point (List.cons_ne_nil d' ds) hf fun c hc => (ht c hc).1) hexp]
    have hlength : x - ((d' :: ds).length : Int) = x + 1 - (d :: d' :: ds).length := by
      simp only [List.length_cons]
      omega
    simp only [List.isEmpty_cons, Bool.false_and, Bool.false_eq_true, if_false,
      Option.getD_some, hlength, List.singleton_append]

theorem significant_significantDigits {c : Nat} (hc : c ≠ 0) :
    Significant (Double.significantDigits c) :=
  ⟨Double.isDigit_of_mem_significantDigits, Double.head_significantDigits hc⟩

theorem readNumber_magnitudeText (negative : Bool) (e : Fin 2047) (f : Fin (Nat.pow 2 52))
    (hr : Closes r) :
    readNumber (signText negative ++ (magnitudeText e f ++ r)) =
      .ok (.double (.finite negative e f), r) := by
  by_cases hz : Double.ordinal e f = 0
  · have htext : magnitudeText e f = ['0', '.', '0'] := if_pos hz
    have hread := readNumber_point negative .zero (List.cons_ne_nil '0' [])
      (isDigit_of_mem_zeros (k := 1)) hr
    have hvalue : Nat.ofDigitChars 10 (['0'] ++ ['0']) 0 = 0 := rfl
    rw [hvalue, Double.ofDecimal_zero, Double.zero, ← hz, Double.ofOrdinal_ordinal] at hread
    rw [htext]
    exact hread
  · have hds := significant_significantDigits (Double.digits_shortest_ne_zero hz)
    have hread := Double.ofDecimal_significantDigits negative e f
    rw [magnitudeText, if_neg hz]
    dsimp only
    split
    · rw [readNumber_positional negative hds _ hr, hread]
    · rw [readNumber_scientific negative hds _ hr, sub_add_cancel, hread]

theorem head_positional (h : Significant ds) (point : Int) :
    ∃ d t, positional ds point = d :: t ∧ d.isDigit = true := by
  obtain ⟨d, t, rfl, -⟩ := h.head
  have hd : d.isDigit = true := h.digit d List.mem_cons_self
  match point with
  | .negSucc k => exact ⟨'0', _, rfl, rfl⟩
  | .ofNat 0 => exact ⟨'0', _, rfl, rfl⟩
  | .ofNat (k + 1) =>
    by_cases hlong : (d :: t).length ≤ k + 1
    · exact ⟨d, _, if_pos hlong, hd⟩
    · exact ⟨d, _, if_neg hlong, hd⟩

theorem head_scientific (h : Significant ds) (x : Int) :
    ∃ d t, scientific ds x = d :: t ∧ d.isDigit = true := by
  obtain ⟨d, t, rfl, -⟩ := h.head
  have hd : d.isDigit = true := h.digit d List.mem_cons_self
  cases t <;> exact ⟨d, _, rfl, hd⟩

theorem head_magnitudeText (e : Fin 2047) (f : Fin (Nat.pow 2 52)) :
    ∃ d t, magnitudeText e f = d :: t ∧ d.isDigit = true := by
  by_cases hz : Double.ordinal e f = 0
  · exact ⟨'0', ['.', '0'], if_pos hz, rfl⟩
  · have hds := significant_significantDigits (Double.digits_shortest_ne_zero hz)
    rw [magnitudeText, if_neg hz]
    dsimp only
    split
    · exact head_positional hds _
    · exact head_scientific hds _

/-! ### Scalars without quotes -/

/-- The characters that a scalar other than a string can begin with. -/
def StartsPlain (c : Char) : Prop := c.isDigit = true ∨ c ∈ ['-', 'n', 't', 'f', 'N', 'I']

instance (c : Char) : Decidable (StartsPlain c) := inferInstanceAs (Decidable (_ ∨ _))

theorem startsPlain_signText (negative : Bool) {d : Char} (hd : d.isDigit = true) :
    ∃ c u, signText negative ++ d :: t = c :: u ∧ StartsPlain c := by
  cases negative with
  | true => exact ⟨'-', d :: t, rfl, by decide⟩
  | false => exact ⟨d, t, rfl, .inl hd⟩

/-- A text that begins with a digit, with or without a minus, is a number. -/
theorem readPlain_signText (negative : Bool) {d : Char} (hd : d.isDigit = true) :
    readPlain (signText negative ++ d :: t) = readNumber (signText negative ++ d :: t) := by
  have hne {c : Char} (hc : c.isDigit = false) : (c == d) = false := by
    rw [beq_eq_false_iff_ne]
    rintro rfl
    rw [hd] at hc
    cases hc
  have hword : readWord? (signText negative ++ d :: t) words = none := by
    cases negative <;> simp [readWord?, words, signText, List.isPrefixOf, hne]
  rw [readPlain, hword]

theorem startsPlain_intChars (n : Int) :
    ∃ c t, Text.intChars n = c :: t ∧ StartsPlain c := by
  obtain ⟨d, t, hd⟩ := List.exists_cons_of_ne_nil (Nat.toDigits_ne_nil (n := n.natAbs) (b := 10))
  rw [intChars_eq, hd]
  exact startsPlain_signText _ (Text.isDigit_of_mem_toDigits d (hd ▸ List.mem_cons_self))

/-- **A whole number reads back**, if it has no more digits than a text may write. -/
theorem readPlain_intChars {n : Int}
    (hn : (Nat.toDigits 10 n.natAbs).length ≤ Text.digitLimit) (hr : Closes r) :
    readPlain (Text.intChars n ++ r) = .ok (.int n, r) := by
  have hread := readNumber_intChars hn hr
  obtain ⟨d, t, hd⟩ := List.exists_cons_of_ne_nil (Nat.toDigits_ne_nil (n := n.natAbs) (b := 10))
  have hdigit := Text.isDigit_of_mem_toDigits d (hd ▸ List.mem_cons_self)
  rw [intChars_eq, hd, List.append_assoc] at hread ⊢
  exact (readPlain_signText _ hdigit).trans hread

theorem startsPlain_double (x : Double) :
    ∃ c t, x.text specialNames = c :: t ∧ StartsPlain c := by
  cases x with
  | nan => exact ⟨'N', ['a', 'N'], by decide, by decide⟩
  | infinite negative => cases negative <;> exact ⟨_, _, rfl, by decide⟩
  | finite negative e f =>
    obtain ⟨d, t, hd, hdigit⟩ := head_magnitudeText e f
    show ∃ c u, signText negative ++ magnitudeText e f = c :: u ∧ StartsPlain c
    rw [hd]
    exact startsPlain_signText negative hdigit

/-- **A double reads back**: the special values by their words, all others by their
digits. -/
theorem readPlain_double (x : Double) (hr : Closes r) :
    readPlain (x.text specialNames ++ r) = .ok (.double x, r) := by
  cases x with
  | nan => rfl
  | infinite negative => cases negative <;> rfl
  | finite negative e f =>
    have hread := readNumber_magnitudeText negative e f hr
    obtain ⟨d, t, hd, hdigit⟩ := head_magnitudeText e f
    show readPlain (signText negative ++ magnitudeText e f ++ r) = _
    rw [List.append_assoc]
    rw [hd] at hread ⊢
    exact (readPlain_signText negative hdigit).trans hread

end JsonPaths.Json
