/-
JsonPaths/Proofs/Json/Progress.lean

How readers move through a text.

A reader that succeeds leaves a rest that is an end of its text and shorter; one that stops
names an end of the text, where the fault lies, or has met a run of digits that is too long
(`Advances`).  So every fault is located within the text, and a text is refused for the
length of a number only if it has so many digits in a row (`in_of_readAll`).
-/
import JsonPaths.Json.Reader
import Mathlib.Data.List.Infix
import Mathlib.Data.List.TakeWhile

namespace JsonPaths

/-- Somewhere in the text are so many digits in a row. -/
def Text.HasDigits (n : Nat) (s : List Char) : Prop :=
  ∃ ds, ds.length = n ∧ (∀ c ∈ ds, c.isDigit = true) ∧ ds <:+: s

namespace Json

/-- What a stop says is so in the text: the rest at a fault is an end of it, and what is
said to have too many digits is in it. -/
def Stop.In (text : List Char) : Stop → Prop
  | .fault _ rest => rest <:+ text
  | .tooManyDigits n => Text.digitLimit < n ∧ Text.HasDigits n text

/-- A rest that is a shorter end of a text. -/
def Past (s r : List Char) : Prop := r <:+ s ∧ r.length < s.length

/-- A reader that is at `s` in a text leaves a rest behind `s`, or stops at something that
is in the text. -/
structure Advances {α : Type} (text s : List Char) (x : Except Stop (α × List Char)) : Prop where
  ok : ∀ a r, x = .ok (a, r) → Past s r
  error : ∀ e, x = .error e → e.In text

variable {text s t r done : List Char} {n fuel : Nat} {c : Char} {e : Stop}

/-! ### Rests -/

namespace Past

theorem suffix (h : Past s r) : r <:+ s := h.1

theorem cons (h : r <:+ s) : Past (c :: s) r :=
  ⟨h.trans (List.suffix_cons c s), Nat.lt_succ_of_le h.length_le⟩

theorem trans_suffix (h : Past s r) (ht : t <:+ r) : Past s t :=
  ⟨ht.trans h.1, Nat.lt_of_le_of_lt ht.length_le h.2⟩

theorem of_suffix (h : Past t r) (hs : t <:+ s) : Past s r :=
  ⟨h.1.trans hs, Nat.lt_of_lt_of_le h.2 hs.length_le⟩

end Past

theorem skipBlank_suffix (s : List Char) : skipBlank s <:+ s := List.dropWhile_suffix isBlank

theorem length_skipBlank_le (s : List Char) : (skipBlank s).length ≤ s.length :=
  (skipBlank_suffix s).length_le

theorem past_of_skipBlank (h : skipBlank s = c :: r) : Past s r :=
  (Past.cons (List.suffix_refl r)).of_suffix (h ▸ skipBlank_suffix s)

namespace Advances

variable {α β : Type} {x : Except Stop (α × List Char)}

theorem pure {a : α} (h : Past s r) : Advances text s (.ok (a, r)) where
  ok := by
    rintro _ _ ⟨⟩
    exact h
  error := nofun

theorem stop (h : e.In text) : Advances (α := α) text s (.error e) where
  ok := nofun
  error := by
    rintro _ ⟨⟩
    exact h

theorem of_suffix (h : Advances text t x) (hs : t <:+ s) : Advances text s x where
  ok a r hx := (h.ok a r hx).of_suffix hs
  error := h.error

end Advances

/-! ### Strings -/

theorem readCode_cons_eq_ok : readCode (c :: s) = .ok (n, r) ↔
    ∃ x y z w, s = [x, y, z, w] ++ r ∧ r ≠ [] ∧ hexFour? x y z w = some n := by
  constructor
  · intro h
    unfold readCode at h
    split at h
    · next hs =>
      cases hs
      split at h
      · next hn =>
        cases h
        exact ⟨_, _, _, _, rfl, List.cons_ne_nil _ _, hn⟩
      · cases h
    · cases h
  · rintro ⟨x, y, z, w, rfl, hr, hn⟩
    obtain ⟨d, r, rfl⟩ := List.exists_cons_of_ne_nil hr
    show readCode (c :: x :: y :: z :: w :: d :: r) = _
    simp only [readCode, hn]

theorem readCode_eq_error (h : readCode s = .error e) : e = .fault .badCodeEscape s := by
  unfold readCode at h
  split at h
  · split at h <;> cases h
    rfl
  · cases h
    rfl

theorem past_of_readCode (h : readCode s = .ok (n, r)) : Past s r := by
  cases s with
  | nil => cases h
  | cons c s =>
    obtain ⟨x, y, z, w, rfl, -, -⟩ := readCode_cons_eq_ok.1 h
    exact .cons (List.suffix_append _ r)

theorem past_of_readLow (h : readLow s = .ok (some (n, r))) : Past s r := by
  unfold readLow at h
  split at h
  · split at h
    · cases h
    · next hc =>
      split at h <;> cases h
      exact (past_of_readCode hc).of_suffix (List.suffix_cons _ _)
  · cases h

theorem in_of_readLow (h : readLow s = .error e) (hs : s <:+ text) : e.In text := by
  unfold readLow at h
  split at h
  · split at h
    · next hc =>
      cases h
      rw [readCode_eq_error hc]
      exact (List.suffix_cons _ _).trans hs
    · cases h
  · cases h

theorem readEscape_advances (hs : '\\' :: s <:+ text) :
    Advances text s (readEscape s) := by
  have hrest : s <:+ text := (List.suffix_cons _ _).trans hs
  unfold readEscape
  split
  · exact .stop hrest
  · split
    · next hc =>
      rw [readCode_eq_error hc]
      exact .stop hrest
    · next hc =>
      have hpast := past_of_readCode hc
      split
      · split
        · next hl => exact .stop (in_of_readLow hl (hpast.suffix.trans hrest))
        · next hl => exact .pure (hpast.trans_suffix (past_of_readLow hl).suffix)
        · exact .pure hpast
      · split <;> exact .pure hpast
  · split
    · exact .pure (.cons (List.suffix_refl _))
    · exact .stop hs

theorem readString_advances {start : List Char} (hstart : start <:+ text) (hs : s <:+ text) :
    Advances text s (readString start done s) := by
  fun_induction readString start done s with
  | case1 => exact .stop hstart
  | case2 done r => exact .pure (.cons (List.suffix_refl r))
  | case3 => exact .stop hstart
  | case4 done r hr e he =>
    exact .stop ((readEscape_advances hs).error _ he)
  | case5 done r hr c r' he ih =>
    have hpast := (readEscape_advances hs).ok _ _ he
    have hr : r' <:+ '\\' :: r := hpast.suffix.trans (List.suffix_cons _ _)
    exact (ih (hr.trans hs)).of_suffix hr
  | case6 done c r hq hb hb' hc => exact .stop hs
  | case7 done c r hq hb hb' hc ih =>
    exact (ih ((List.suffix_cons _ _).trans hs)).of_suffix (List.suffix_cons _ _)

/-! ### Numbers and words -/

/-- The sign in front of a number. -/
def cutSign (s : List Char) : Bool × List Char :=
  match s with
  | '-' :: r => (true, r)
  | _ => (false, s)

/-- The sign in front of the digits of an exponent. -/
def cutExponentSign (s : List Char) : Bool × List Char :=
  match s with
  | '-' :: r => (true, r)
  | '+' :: r => (false, r)
  | _ => (false, s)

/-- A number is its sign, its whole digits, its fraction and its exponent, one after the
other. -/
theorem readNumber_parts (s : List Char) : readNumber s =
    let sign := cutSign s
    let whole := readWhole sign.2
    let fraction := readFraction whole.2
    let exponent := readExponent fraction.2
    if whole.1.isEmpty then .error (.fault .expectingValue s)
    else if fraction.1.isEmpty && exponent.1.isNone then
      if Text.digitLimit < whole.1.length then .error (.tooManyDigits whole.1.length)
      else .ok (.int (Text.signed sign.1 whole.1), exponent.2)
    else
      .ok (.double (.ofDecimal sign.1 (Nat.ofDigitChars 10 (whole.1 ++ fraction.1) 0)
        (exponent.1.getD 0 - fraction.1.length)), exponent.2) :=
  rfl

theorem readExponent_parts (h : c = 'e' ∨ c = 'E') (r : List Char) : readExponent (c :: r) =
    let sign := cutExponentSign r
    let digits := sign.2.span Char.isDigit
    if digits.1.isEmpty then (none, c :: r)
    else (some (Text.signed sign.1 digits.1), digits.2) :=
  if_pos h

theorem readExponent_other (h : ¬(c = 'e' ∨ c = 'E')) (r : List Char) :
    readExponent (c :: r) = (none, c :: r) :=
  if_neg h

theorem span_suffix (p : Char → Bool) (s : List Char) : (s.span p).2 <:+ s := by
  rw [List.span_eq_takeWhile_dropWhile]
  exact List.dropWhile_suffix p

theorem cutSign_suffix (s : List Char) : (cutSign s).2 <:+ s := by
  unfold cutSign
  split
  · exact List.suffix_cons _ _
  · exact List.suffix_refl _

theorem cutExponentSign_suffix (s : List Char) : (cutExponentSign s).2 <:+ s := by
  unfold cutExponentSign
  split
  · exact List.suffix_cons _ _
  · exact List.suffix_cons _ _
  · exact List.suffix_refl _

/-- The whole digits are digits, and they are what the reader passes. -/
theorem readWhole_append_rest (s : List Char) : (readWhole s).1 ++ (readWhole s).2 = s ∧
    ∀ c ∈ (readWhole s).1, c.isDigit = true := by
  unfold readWhole
  split
  · exact ⟨rfl, List.forall_mem_singleton.2 rfl⟩
  · rw [List.span_eq_takeWhile_dropWhile]
    exact ⟨List.takeWhile_append_dropWhile, fun c hc => List.mem_takeWhile_imp hc⟩

theorem readFraction_suffix (s : List Char) : (readFraction s).2 <:+ s := by
  unfold readFraction
  split
  · split
    · exact List.suffix_refl _
    · exact (span_suffix _ _).trans (List.suffix_cons _ _)
  · exact List.suffix_refl _

theorem readExponent_suffix (s : List Char) : (readExponent s).2 <:+ s := by
  cases s with
  | nil => exact List.suffix_refl _
  | cons c r =>
    by_cases h : c = 'e' ∨ c = 'E'
    · rw [readExponent_parts h]
      dsimp only
      split
      · exact List.suffix_refl _
      · exact ((span_suffix _ _).trans (cutExponentSign_suffix r)).trans (List.suffix_cons c r)
    · rw [readExponent_other h]

theorem readNumber_advances (hs : s <:+ text) : Advances text s (readNumber s) := by
  rw [readNumber_parts]
  dsimp only
  obtain ⟨happ, hdigits⟩ := readWhole_append_rest (cutSign s).2
  split
  · exact .stop hs
  · next hwhole =>
    have hrest : Past s (readExponent (readFraction (readWhole (cutSign s).2).2).2).2 := by
      refine Past.trans_suffix ?_ ((readExponent_suffix _).trans (readFraction_suffix _))
      refine Past.of_suffix (t := (cutSign s).2) ⟨⟨_, happ⟩, ?_⟩ (cutSign_suffix s)
      have hpos := List.length_pos_iff.2 fun h => hwhole (List.isEmpty_iff.2 h)
      have hlength := congrArg List.length happ
      rw [List.length_append] at hlength
      omega
    split
    · split
      · next hlong =>
        have hstart : (readWhole (cutSign s).2).1 <+: (cutSign s).2 := ⟨_, happ⟩
        have hinfix := hstart.isInfix.trans ((cutSign_suffix s).trans hs).isInfix
        exact .stop ⟨hlong, _, rfl, hdigits, hinfix⟩
      · exact .pure hrest
    · exact .pure hrest

/-- What is read as a word starts with a word of the table. -/
theorem readWord?_eq_some {v : Json} {ws : List (String × Json)}
    (h : readWord? s ws = some (v, r)) : ∃ w ∈ ws, s = w.1.toList ++ r ∧ v = w.2 := by
  induction ws with
  | nil => cases h
  | cons w ws ih =>
    unfold readWord? at h
    split at h
    · next hw =>
      cases h
      obtain ⟨t, rfl⟩ := List.isPrefixOf_iff_prefix.1 hw
      refine ⟨w, List.mem_cons_self, ?_, rfl⟩
      rw [← String.length_toList, List.drop_left]
    · obtain ⟨w', hw, h⟩ := ih h
      exact ⟨w', List.mem_cons_of_mem _ hw, h⟩

theorem word_ne_nil : ∀ w ∈ words, w.1.toList ≠ [] := by decide

theorem readPlain_advances (hs : s <:+ text) : Advances text s (readPlain s) := by
  unfold readPlain
  split
  · next read h =>
    obtain ⟨v, r⟩ := read
    obtain ⟨w, hw, rfl, -⟩ := readWord?_eq_some h
    obtain ⟨c, t, hc⟩ := List.exists_cons_of_ne_nil (word_ne_nil w hw)
    rw [hc]
    exact .pure (.cons (List.suffix_append t r))
  · exact readNumber_advances hs

/-! ### Values -/

/-- Values that are read with so much fuel are passed. -/
structure ReadsOn (text : List Char) (fuel : Nat) : Prop where
  value : ∀ s, s <:+ text → Advances text s (readValue fuel s)
  items : ∀ done s, s <:+ text → Advances text s (readItems fuel done s)
  members : ∀ done s, s <:+ text → Advances text s (readMembers fuel done s)

namespace ReadsOn

theorem value_succ (h : ReadsOn text fuel) (hs : s <:+ text) :
    Advances text s (readValue (fuel + 1) s) := by
  unfold readValue
  split
  · next r =>
    have hr : r <:+ text := (List.suffix_cons _ r).trans hs
    have hread : Advances text r (readString _ [] r) := readString_advances hs hr
    cases hx : readString ('"' :: r) [] r with
    | error e => exact .stop (hread.error e hx)
    | ok p => exact .pure ((hread.ok _ _ hx).of_suffix (List.suffix_cons _ r))
  · next r =>
    split
    · next hr => exact .pure ((past_of_skipBlank hr).of_suffix (List.suffix_cons _ r))
    · have hr : skipBlank r <:+ '[' :: r := (skipBlank_suffix r).trans (List.suffix_cons _ r)
      exact (h.items [] _ (hr.trans hs)).of_suffix hr
  · next r =>
    split
    · next hr => exact .pure ((past_of_skipBlank hr).of_suffix (List.suffix_cons _ r))
    · have hr : skipBlank r <:+ '\x7b' :: r :=
        (skipBlank_suffix r).trans (List.suffix_cons _ r)
      exact (h.members [] _ (hr.trans hs)).of_suffix hr
  · exact readPlain_advances hs

theorem items_succ (h : ReadsOn text fuel) {done : List Json} (hs : s <:+ text) :
    Advances text s (readItems (fuel + 1) done s) := by
  unfold readItems
  split
  · next hv => exact .stop ((h.value s hs).error _ hv)
  · next v r hv =>
    have hr := ((h.value s hs).ok _ _ hv).suffix
    split
    · next hc => exact .pure ((past_of_skipBlank hc).of_suffix hr)
    · next hc =>
      have hnext := ((skipBlank_suffix _).trans (past_of_skipBlank hc).suffix).trans hr
      exact (h.items _ _ (hnext.trans hs)).of_suffix hnext
    · exact .stop ((skipBlank_suffix r).trans (hr.trans hs))

theorem members_succ (h : ReadsOn text fuel) {done : List (String × Json)} (hs : s <:+ text) :
    Advances text s (readMembers (fuel + 1) done s) := by
  unfold readMembers
  split
  · next r =>
    have hr : r <:+ '"' :: r := List.suffix_cons _ r
    have hread : Advances text r (readString _ [] r) := readString_advances hs (hr.trans hs)
    split
    · next hk => exact .stop (hread.error _ hk)
    next k r' hk =>
    have hr := (hread.ok _ _ hk).suffix.trans hr
    split
    · next hc =>
      have hr := ((skipBlank_suffix _).trans (past_of_skipBlank hc).suffix).trans hr
      split
      · next hv => exact .stop ((h.value _ (hr.trans hs)).error _ hv)
      next hv =>
      have hr := ((h.value _ (hr.trans hs)).ok _ _ hv).suffix.trans hr
      dsimp only
      split
      · next hc => exact .pure ((past_of_skipBlank hc).of_suffix hr)
      · next hc =>
        have hnext := ((skipBlank_suffix _).trans (past_of_skipBlank hc).suffix).trans hr
        exact (h.members _ _ (hnext.trans hs)).of_suffix hnext
      · exact .stop ((skipBlank_suffix _).trans (hr.trans hs))
    · exact .stop ((skipBlank_suffix r').trans (hr.trans hs))
  · exact .stop hs

end ReadsOn

/-- Every reader of values moves on, by induction on the fuel. -/
theorem readsOn (text : List Char) (fuel : Nat) : ReadsOn text fuel := by
  induction fuel with
  | zero =>
    constructor
    · intro s hs
      rw [readValue]
      exact .stop hs
    · intro done s hs
      rw [readItems]
      exact .stop hs
    · intro done s hs
      rw [readMembers]
      exact .stop hs
  | succ fuel ih =>
    constructor
    · intro s hs
      exact ih.value_succ hs
    · intro done s hs
      exact ih.items_succ hs
    · intro done s hs
      exact ih.members_succ hs

theorem past_of_readValue {v : Json} (h : readValue fuel s = .ok (v, r)) : Past s r :=
  ((readsOn s fuel).value s (List.suffix_refl s)).ok v r h

theorem past_of_readString {k : List Char} (h : readString (c :: s) [] s = .ok (k, r)) :
    Past s r :=
  (readString_advances (List.suffix_refl _) (List.suffix_cons c s)).ok k r h

/-- **Why a text is not read is found in it.** -/
theorem in_of_readAll (h : readAll s = .error e) : e.In s := by
  unfold readAll at h
  split at h
  · cases h
    exact List.suffix_refl _
  · have hread := (readsOn s (2 * s.length + 2)).value _ (skipBlank_suffix s)
    split at h
    · next hv =>
      cases h
      exact hread.error _ hv
    · next v r hv =>
      split at h
      · cases h
      · cases h
        exact (skipBlank_suffix r).trans ((hread.ok _ _ hv).suffix.trans (skipBlank_suffix s))

/-- A number is refused for its length only if the text has so many digits in a row. -/
theorem hasDigits_of_read {s : String} (h : read s = .error (.tooManyDigits n)) :
    Text.digitLimit < n ∧ Text.HasDigits n s.toList := by
  unfold read at h
  cases hr : readAll s.toList with
  | ok v =>
    rw [hr] at h
    cases h
  | error e =>
    rw [hr] at h
    cases e <;> cases h
    exact in_of_readAll hr

end Json

end JsonPaths
