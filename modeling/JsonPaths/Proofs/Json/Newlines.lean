/-
JsonPaths/Proofs/Json/Newlines.lean

The line ends of a text do not matter to the reader.

Between values a carriage return is a blank as a line feed is, and in a string, an escape, a
number or a word neither may stand.  So a text and the same text with one kind of line end
are read for the same value, or stop at the same fault or at the same number
(`read_unifyNewlines`).  Only the places of faults differ, as the one text may be shorter.
The two are read with fuel of their own, so the induction is on the fuel of the first, and
the fuel of the second may be any that is enough (`ReadsAlike`).
-/
import JsonPaths.Proofs.Json.Progress
import JsonPaths.Proofs.Json.ReadString
import JsonPaths.Proofs.Text.Newline

namespace JsonPaths.Json

open Text

variable {s t r done : List Char} {n fuel : Nat} {c : Char} {e : Stop}

theorem skipBlank_unifyNewlines (s : List Char) :
    skipBlank (unifyNewlines s) = unifyNewlines (skipBlank s) := by
  have hfeed (s : List Char) : skipBlank ('\n' :: s) = skipBlank s := rfl
  induction s with
  | nil => rfl
  | cons c s ih =>
    by_cases hc : c = '\r'
    · obtain ⟨r, hr, h⟩ := unifyNewlines_return s
      have hreturn : skipBlank ('\r' :: s) = skipBlank s := rfl
      rw [hc, hreturn, h, hfeed, ← ih]
      rcases hr with rfl | rfl
      · rfl
      · rw [unifyNewlines_cons (by decide), hfeed]
    · rw [unifyNewlines_cons hc]
      cases hb : isBlank c with
      | true => simpa [skipBlank, hb] using ih
      | false => simp [skipBlank, hb, unifyNewlines_cons hc]

theorem length_skipBlank_unifyNewlines_le (s : List Char) :
    (unifyNewlines (skipBlank s)).length ≤ (unifyNewlines s).length :=
  skipBlank_unifyNewlines s ▸ length_skipBlank_le (unifyNewlines s)

/-! ### What is the same -/

/-- Two stops at the same fault or at a number with as many digits. -/
inductive Stop.Alike : Stop → Stop → Prop
  | fault {f : Fault} {r r' : List Char} : Alike (.fault f r) (.fault f r')
  | tooManyDigits {n : Nat} : Alike (.tooManyDigits n) (.tooManyDigits n)

/-- A reader that comes to the same on the text with one kind of line end, and leaves the
same rest with one kind of line end. -/
inductive Alike {α : Type} :
    Except Stop (α × List Char) → Except Stop (α × List Char) → Prop
  | ok {a : α} {r : List Char} : Alike (.ok (a, r)) (.ok (a, unifyNewlines r))
  | stop {e e' : Stop} : e.Alike e' → Alike (.error e) (.error e')

theorem Alike.cases {α : Type} {x y : Except Stop (α × List Char)} (h : Alike x y) :
    (∃ a r, x = .ok (a, r) ∧ y = .ok (a, unifyNewlines r)) ∨
      ∃ e e', e.Alike e' ∧ x = .error e ∧ y = .error e' := by
  cases h with
  | ok => exact .inl ⟨_, _, rfl, rfl⟩
  | stop he => exact .inr ⟨_, _, he, rfl, rfl⟩

/-! ### Numbers and words -/

theorem firm_of_isDigit (h : c.isDigit = true) : Firm c := by
  constructor <;> rintro rfl <;> cases h

theorem cutSign_unifyNewlines (s : List Char) :
    cutSign (unifyNewlines s) = ((cutSign s).1, unifyNewlines (cutSign s).2) := by
  rcases unifyNewlines_starts (c := '-') (by decide) s with ⟨r, rfl, h⟩ | ⟨h, h'⟩
  · rw [h]
    rfl
  · rw [cutSign.eq_2 s h, cutSign.eq_2 _ h']

theorem cutExponentSign_unifyNewlines (s : List Char) :
    cutExponentSign (unifyNewlines s) =
      ((cutExponentSign s).1, unifyNewlines (cutExponentSign s).2) := by
  rcases unifyNewlines_starts (c := '-') (by decide) s with ⟨r, rfl, h⟩ | ⟨hm, hm'⟩
  · rw [h]
    rfl
  rcases unifyNewlines_starts (c := '+') (by decide) s with ⟨r, rfl, h⟩ | ⟨hp, hp'⟩
  · rw [h]
    rfl
  · rw [cutExponentSign.eq_3 s hm hp, cutExponentSign.eq_3 _ hm' hp']

theorem readWhole_unifyNewlines (s : List Char) :
    readWhole (unifyNewlines s) = ((readWhole s).1, unifyNewlines (readWhole s).2) := by
  rcases unifyNewlines_starts (c := '0') (by decide) s with ⟨r, rfl, h⟩ | ⟨h, h'⟩
  · rw [h]
    rfl
  · rw [readWhole.eq_2 s h, readWhole.eq_2 _ h', span_unifyNewlines fun _ => firm_of_isDigit]

theorem readFraction_unifyNewlines (s : List Char) :
    readFraction (unifyNewlines s) = ((readFraction s).1, unifyNewlines (readFraction s).2) := by
  rcases unifyNewlines_starts (c := '.') (by decide) s with ⟨r, rfl, h⟩ | ⟨h, h'⟩
  · have hspan := span_unifyNewlines (fun _ => firm_of_isDigit) r
    have htake : (unifyNewlines r).takeWhile Char.isDigit = r.takeWhile Char.isDigit := by
      rw [List.span_eq_takeWhile_dropWhile, List.span_eq_takeWhile_dropWhile] at hspan
      exact (Prod.mk.inj hspan).1
    rw [h, readFraction, readFraction, htake]
    split
    · rw [← h]
    · exact hspan
  · rw [readFraction.eq_2 s h, readFraction.eq_2 _ h']

theorem readExponent_unifyNewlines (s : List Char) :
    readExponent (unifyNewlines s) = ((readExponent s).1, unifyNewlines (readExponent s).2) := by
  cases s with
  | nil => rfl
  | cons c r =>
    by_cases h : c = 'e' ∨ c = 'E'
    · have hc : c ≠ '\r' := by
        rintro rfl
        exact absurd h (by decide)
      have hspan := span_unifyNewlines (fun _ => firm_of_isDigit) (cutExponentSign r).2
      rw [unifyNewlines_cons hc, readExponent_parts h, readExponent_parts h]
      dsimp only
      rw [cutExponentSign_unifyNewlines]
      dsimp only
      rw [hspan]
      split
      · rw [unifyNewlines_cons hc]
      · rfl
    · rw [readExponent_other h]
      by_cases hc : c = '\r'
      · obtain ⟨t, -, ht⟩ := unifyNewlines_return r
        rw [hc, ht]
        exact readExponent_other (by decide) _
      · rw [unifyNewlines_cons hc]
        exact readExponent_other h _

theorem readNumber_alike (s : List Char) :
    Alike (readNumber s) (readNumber (unifyNewlines s)) := by
  rw [readNumber_parts, readNumber_parts]
  dsimp only
  simp only [cutSign_unifyNewlines, readWhole_unifyNewlines, readFraction_unifyNewlines,
    readExponent_unifyNewlines]
  split
  · exact .stop .fault
  split
  · split
    · exact .stop .tooManyDigits
    · exact .ok
  · exact .ok

theorem readWord?_unifyNewlines {ws : List (String × Json)}
    (hws : ∀ w ∈ ws, Unbroken w.1.toList) (s : List Char) :
    readWord? (unifyNewlines s) ws =
      (readWord? s ws).map fun p => (p.1, unifyNewlines p.2) := by
  induction ws with
  | nil => rfl
  | cons w ws ih =>
    obtain ⟨hw, hws⟩ := List.forall_mem_cons.1 hws
    rw [readWord?, readWord?]
    have hstart (t : List Char) : w.1.toList.isPrefixOf t = true ↔ ∃ r, t = w.1.toList ++ r := by
      rw [List.isPrefixOf_iff_prefix]
      exact exists_congr fun _ => eq_comm
    have hdrop (t : List Char) : (w.1.toList ++ t).drop w.1.length = t := by
      rw [← String.length_toList, List.drop_left]
    rcases unifyNewlines_starts_word hw s with ⟨r, rfl, h⟩ | ⟨hn, hn'⟩
    · rw [h, if_pos ((hstart _).2 ⟨_, rfl⟩), if_pos ((hstart _).2 ⟨_, rfl⟩), hdrop, hdrop]
      rfl
    · rw [if_neg fun h => (not_exists.2 hn) ((hstart _).1 h),
        if_neg fun h => (not_exists.2 hn') ((hstart _).1 h), ih hws]

theorem unbroken_words : ∀ w ∈ words, Unbroken w.1.toList := by decide

theorem readPlain_alike (s : List Char) : Alike (readPlain s) (readPlain (unifyNewlines s)) := by
  unfold readPlain
  rw [readWord?_unifyNewlines unbroken_words]
  cases readWord? s words with
  | none => exact readNumber_alike s
  | some p => exact .ok

/-! ### Strings -/

theorem unbroken_of_hexFour? {x y z w : Char} (h : hexFour? x y z w = some n) :
    Unbroken [x, y, z, w] := by
  have hhex : ∀ c m, hexDigit? c = some m → Firm c := by
    intro c m hc
    constructor <;> rintro rfl <;> cases hc
  simp only [hexFour?, bind, Option.bind_eq_some_iff] at h
  obtain ⟨_, hx, _, hy, _, hz, _, hw, -⟩ := h
  simp [Unbroken, hhex _ _ hx, hhex _ _ hy, hhex _ _ hz, hhex _ _ hw]

/-- A code is read from one text exactly if it is read from the other. -/
theorem readCode_unifyNewlines : readCode (c :: unifyNewlines s) = .ok (n, t) ↔
    ∃ r, readCode (c :: s) = .ok (n, r) ∧ unifyNewlines r = t := by
  simp only [readCode_cons_eq_ok]
  constructor
  · rintro ⟨x, y, z, w, h, ht, hn⟩
    obtain ⟨r, rfl, rfl⟩ := (unifyNewlines_eq_append (unbroken_of_hexFour? hn)).1 h
    exact ⟨r, ⟨x, y, z, w, rfl, unifyNewlines_eq_nil.not.1 ht, hn⟩, rfl⟩
  · rintro ⟨r, ⟨x, y, z, w, rfl, hr, hn⟩, rfl⟩
    have happ := (unifyNewlines_eq_append (unbroken_of_hexFour? hn)).2 ⟨r, rfl, rfl⟩
    exact ⟨x, y, z, w, happ, unifyNewlines_eq_nil.not.2 hr, hn⟩

/-- A broken code is broken in the other text. -/
theorem readCode_unifyNewlines_error (h : readCode (c :: s) = .error e) :
    readCode (c :: unifyNewlines s) =
      .error (.fault .badCodeEscape (c :: unifyNewlines s)) := by
  cases hr : readCode (c :: unifyNewlines s) with
  | error e' => rw [readCode_eq_error hr]
  | ok p =>
    obtain ⟨r, hr, -⟩ := readCode_unifyNewlines.1 hr
    cases h.symm.trans hr

/-- A code escape that is begun but broken.  After a first surrogate the reader stops at it
at once if enough text follows, and otherwise as soon as it comes to it; how much text
follows depends on the line ends, but it stops. -/
def Broken (s : List Char) : Prop :=
  ∃ t e, s = '\\' :: 'u' :: t ∧ readCode ('u' :: t) = .error e

theorem readLow_of_code (h : readCode ('u' :: s) = .ok (n, r)) :
    readLow ('\\' :: 'u' :: s) = .ok (if 0xdc00 ≤ n ∧ n < 0xe000 then some (n, r) else none) := by
  obtain ⟨x, y, z, w, rfl, hr, -⟩ := readCode_cons_eq_ok.1 h
  obtain ⟨d, r, rfl⟩ := List.exists_cons_of_ne_nil hr
  show readLow ('\\' :: 'u' :: x :: y :: z :: w :: d :: r) = _
  change readCode ('u' :: x :: y :: z :: w :: d :: r) = _ at h
  rw [readLow, h]

theorem readLow_of_ne (h : ∀ t, s ≠ ['\\', 'u'] ++ t) : readLow s = .ok none := by
  unfold readLow
  split
  · exact absurd rfl (h _)
  · rfl

/-- A broken code escape is passed over or stopped at. -/
theorem readLow_of_broken (h : Broken s) :
    readLow s = .ok none ∨ ∃ r, readLow s = .error (.fault .badCodeEscape r) := by
  obtain ⟨t, e, rfl, h⟩ := h
  unfold readLow
  split
  · next hs =>
    cases hs
    rw [h, readCode_eq_error h]
    exact .inr ⟨_, rfl⟩
  · exact .inl rfl

theorem broken_unifyNewlines (h : Broken s) : Broken (unifyNewlines s) := by
  obtain ⟨t, e, rfl, h⟩ := h
  refine ⟨unifyNewlines t, _, ?_, readCode_unifyNewlines_error h⟩
  rw [unifyNewlines_cons (by decide), unifyNewlines_cons (by decide)]

theorem readLow_unifyNewlines (h : ¬Broken s) :
    ∃ o, readLow s = .ok o ∧
      readLow (unifyNewlines s) = .ok (o.map fun p => (p.1, unifyNewlines p.2)) := by
  rcases unifyNewlines_starts_word (w := ['\\', 'u']) (by decide) s with ⟨t, rfl, ht⟩ | ⟨hn, hn'⟩
  · cases hc : readCode ('u' :: t) with
    | error e => exact absurd ⟨t, e, rfl, hc⟩ h
    | ok p =>
      obtain ⟨n, r⟩ := p
      refine ⟨_, readLow_of_code hc, ?_⟩
      rw [ht]
      refine (readLow_of_code (readCode_unifyNewlines.2 ⟨r, hc, rfl⟩)).trans ?_
      split <;> rfl
  · exact ⟨none, readLow_of_ne hn, readLow_of_ne hn'⟩

/-- After a backslash and such a text no string is read. -/
def Fails (f : Fault) (s : List Char) : Prop :=
  ∀ start done, ∃ rest, readString start done ('\\' :: s) = .error (.fault f rest)

theorem fails_nil : Fails .unterminatedString [] := by
  intro start done
  exact ⟨start, readString.eq_3 start done⟩

theorem fails_of_readEscape {f : Fault} (hs : s ≠ []) (h : readEscape s = .error (.fault f r)) :
    Fails f s := by
  intro start done
  refine ⟨r, ?_⟩
  rw [readString.eq_4 _ _ _ hs]
  split
  · next he =>
    cases he.symm.trans h
    rfl
  · next he => cases he.symm.trans h

theorem fails_of_letter (hu : c ≠ 'u') (h : shortEscape? c = none) :
    Fails .badEscape (c :: s) := by
  refine fails_of_readEscape (List.cons_ne_nil c s) (r := '\\' :: c :: s) ?_
  rw [readEscape.eq_3 c s hu, h]

theorem fails_of_readCode (h : readCode ('u' :: s) = .error e) :
    Fails .badCodeEscape ('u' :: s) := by
  refine fails_of_readEscape (List.cons_ne_nil _ _) (r := 'u' :: s) ?_
  rw [readEscape, h, readCode_eq_error h]

/-- A first surrogate and a broken code escape. -/
theorem fails_of_broken (h : readCode ('u' :: s) = .ok (n, r)) (hn : 0xd800 ≤ n ∧ n < 0xdc00)
    (hr : Broken r) : Fails .badCodeEscape ('u' :: s) := by
  rcases readLow_of_broken hr with hl | ⟨r', hl⟩
  · intro start done
    have he : readEscape ('u' :: s) = .ok ('\ufffd', r) := by
      rw [readEscape, h]
      simp only [if_pos hn, hl]
    obtain ⟨t, e, rfl, ht⟩ := hr
    rw [readString_escape he]
    exact fails_of_readCode ht start _
  · refine fails_of_readEscape (List.cons_ne_nil _ _) (r := r') ?_
    rw [readEscape, h]
    simp only [if_pos hn, hl]

/-- What follows a backslash is read as the same character, or fails alike. -/
theorem readEscape_unifyNewlines (s : List Char) :
    (∃ c r, readEscape s = .ok (c, r) ∧ readEscape (unifyNewlines s) = .ok (c, unifyNewlines r)) ∨
      ∃ f, Fails f s ∧ Fails f (unifyNewlines s) := by
  cases s with
  | nil => exact .inr ⟨_, fails_nil, fails_nil⟩
  | cons c s =>
    by_cases hu : c = 'u'
    · subst hu
      rw [unifyNewlines_cons (by decide)]
      cases hc : readCode ('u' :: s) with
      | error e =>
        exact .inr ⟨_, fails_of_readCode hc, fails_of_readCode (readCode_unifyNewlines_error hc)⟩
      | ok p =>
        obtain ⟨n, r⟩ := p
        have hc' := readCode_unifyNewlines.2 ⟨r, hc, rfl⟩
        by_cases hn : 0xd800 ≤ n ∧ n < 0xdc00
        -- the reader looks ahead for the second surrogate
        · by_cases hr : Broken r
          · exact .inr ⟨_, fails_of_broken hc hn hr,
              fails_of_broken hc' hn (broken_unifyNewlines hr)⟩
          · obtain ⟨o, hl, hl'⟩ := readLow_unifyNewlines hr
            simp only [readEscape, hc, hc', if_pos hn, hl, hl']
            cases o with
            | none => exact .inl ⟨_, _, rfl, rfl⟩
            | some p => exact .inl ⟨_, _, rfl, rfl⟩
        · simp only [readEscape, hc, hc', if_neg hn]
          split
          · exact .inl ⟨_, _, rfl, rfl⟩
          · exact .inl ⟨_, _, rfl, rfl⟩
    · by_cases hr : c = '\r'
      -- neither part of a line end is a letter of an escape
      · obtain ⟨t, -, ht⟩ := unifyNewlines_return s
        rw [hr, ht]
        exact .inr ⟨_, fails_of_letter (by decide) rfl, fails_of_letter (by decide) rfl⟩
      · rw [unifyNewlines_cons hr]
        cases hx : shortEscape? c with
        | none => exact .inr ⟨_, fails_of_letter hu hx, fails_of_letter hu hx⟩
        | some x =>
          have hread (t : List Char) : readEscape (c :: t) = .ok (x, t) := by
            rw [readEscape.eq_3 c t hu, hx]
          exact .inl ⟨x, s, hread s, hread _⟩

theorem Fails.alike {f : Fault} {start start' : List Char} (h : Fails f s)
    (h' : Fails f (unifyNewlines s)) : Alike (readString start done ('\\' :: s))
      (readString start' done ('\\' :: unifyNewlines s)) := by
  obtain ⟨rest, hs⟩ := h start done
  obtain ⟨rest', hs'⟩ := h' start' done
  rw [hs, hs']
  exact .stop .fault

theorem readString_control {start : List Char} (hq : c ≠ '"') (hb : c ≠ '\\')
    (h : c.toNat < 32) :
    readString start done (c :: r) = .error (.fault .controlCharacter (c :: r)) := by
  rw [readString.eq_5 _ _ _ _ hq (fun hc => absurd hc hb) hb, if_pos h]

/-- **A string is read alike.** -/
theorem readString_alike (start start' done s : List Char) :
    Alike (readString start done s) (readString start' done (unifyNewlines s)) := by
  induction done, s using readString.induct with
  | case1 done =>
    rw [unifyNewlines, readString, readString]
    exact .stop .fault
  | case2 done r =>
    rw [unifyNewlines_cons (by decide), readString, readString]
    exact .ok
  | case3 done =>
    show Alike _ (readString start' done ['\\'])
    rw [readString, readString]
    exact .stop .fault
  | case4 done r hne e he =>
    rw [unifyNewlines_cons (by decide)]
    rcases readEscape_unifyNewlines r with ⟨c, t, h, -⟩ | ⟨f, h, h'⟩
    · cases he.symm.trans h
    · exact h.alike h'
  | case5 done r hne c r' he ih =>
    rw [unifyNewlines_cons (by decide)]
    rcases readEscape_unifyNewlines r with ⟨c, t, h, h'⟩ | ⟨f, h, h'⟩
    · cases he.symm.trans h
      rw [readString_escape h, readString_escape h']
      exact ih
    · exact h.alike h'
  | case6 done c r hq hb hb' hc =>
    -- a carriage return is a control character, and so is the line feed for it
    by_cases hr : c = '\r'
    · obtain ⟨t, -, ht⟩ := unifyNewlines_return r
      rw [hr, ht, readString_control (by decide) (by decide) (by decide),
        readString_control (by decide) (by decide) (by decide)]
      exact .stop .fault
    · rw [unifyNewlines_cons hr, readString_control hq hb' hc, readString_control hq hb' hc]
      exact .stop .fault
  | case7 done c r hq hb hb' hc ih =>
    have hr : c ≠ '\r' := by
      rintro rfl
      exact hc (by decide)
    have hc := Nat.le_of_not_lt hc
    rw [unifyNewlines_cons hr, readString_plain hq hb' hc, readString_plain hq hb' hc]
    exact ih

/-! ### Values -/

/-- With so much fuel the text is read as the one with one kind of line end is, whatever
fuel that has, if it is enough. -/
structure ReadsAlike (fuel : Nat) : Prop where
  value : ∀ g s, 2 * s.length < fuel → 2 * (unifyNewlines s).length < g →
    Alike (readValue fuel s) (readValue g (unifyNewlines s))
  items : ∀ done g s, 2 * s.length + 1 < fuel → 2 * (unifyNewlines s).length + 1 < g →
    Alike (readItems fuel done s) (readItems g done (unifyNewlines s))
  members : ∀ done g s, 2 * s.length + 1 < fuel → 2 * (unifyNewlines s).length + 1 < g →
    Alike (readMembers fuel done s) (readMembers g done (unifyNewlines s))

namespace ReadsAlike

variable {g : Nat}

theorem value_succ (h : ReadsAlike fuel) (hf : 2 * s.length < fuel + 1)
    (hg : 2 * (unifyNewlines s).length < g + 1) :
    Alike (readValue (fuel + 1) s) (readValue (g + 1) (unifyNewlines s)) := by
  rcases unifyNewlines_starts (c := '"') (by decide) s with ⟨r, rfl, hu⟩ | ⟨hq, hq'⟩
  · rw [hu, readValue, readValue]
    rcases (readString_alike ('"' :: r) ('"' :: unifyNewlines r) [] r).cases with
      ⟨t, r', ht, ht'⟩ | ⟨e, e', he, hx, hy⟩
    · rw [ht, ht']
      exact .ok
    · rw [hx, hy]
      exact .stop he
  rcases unifyNewlines_starts (c := '[') (by decide) s with ⟨r, rfl, hu⟩ | ⟨hb, hb'⟩
  · rw [hu] at hg ⊢
    rw [readValue, readValue, skipBlank_unifyNewlines]
    rcases unifyNewlines_starts (c := ']') (by decide) (skipBlank r) with
      ⟨t, ht, ht'⟩ | ⟨hn, hn'⟩
    · rw [ht', ht]
      exact .ok
    have hitems : Alike (readItems fuel [] (skipBlank r))
        (readItems g [] (unifyNewlines (skipBlank r))) := by
      rw [List.length_cons] at hf hg
      have hlen := length_skipBlank_le r
      have hlen' := length_skipBlank_unifyNewlines_le r
      exact h.items [] g (skipBlank r) (by omega) (by omega)
    split
    · next ht => exact absurd ht (hn _)
    · exact hitems
  rcases unifyNewlines_starts (c := '\x7b') (by decide) s with ⟨r, rfl, hu⟩ | ⟨ho, ho'⟩
  · rw [hu] at hg ⊢
    rw [readValue, readValue, skipBlank_unifyNewlines]
    rcases unifyNewlines_starts (c := '\x7d') (by decide) (skipBlank r) with
      ⟨t, ht, ht'⟩ | ⟨hn, hn'⟩
    · rw [ht', ht]
      exact .ok
    have hmembers : Alike (readMembers fuel [] (skipBlank r))
        (readMembers g [] (unifyNewlines (skipBlank r))) := by
      rw [List.length_cons] at hf hg
      have hlen := length_skipBlank_le r
      have hlen' := length_skipBlank_unifyNewlines_le r
      exact h.members [] g (skipBlank r) (by omega) (by omega)
    split
    · next ht => exact absurd ht (hn _)
    · exact hmembers
  · rw [readValue.eq_5 _ _ hq hb ho, readValue.eq_5 _ _ hq' hb' ho']
    exact readPlain_alike s

/-- What comes after an item and a comma is shorter than the text by two characters. -/
theorem length_after {a : Json} (hv : readValue fuel s = .ok (a, r)) (hr : skipBlank r = c :: t) :
    (skipBlank t).length + 2 ≤ s.length := by
  have h := (past_of_readValue hv).2
  have h' := (past_of_skipBlank hr).2
  have := length_skipBlank_le t
  omega

/-- The value of a member is shorter than the member by its quotes and its colon. -/
theorem length_value {k r' : List Char} (hk : readString ('"' :: r) [] r = .ok (k, r'))
    (ht : skipBlank r' = ':' :: t) : (skipBlank t).length + 3 ≤ ('"' :: r).length := by
  have h := (past_of_readString hk).2
  have h' := (past_of_skipBlank ht).2
  have := length_skipBlank_le t
  rw [List.length_cons]
  omega

theorem items_succ (h : ReadsAlike fuel) {done : List Json} (hf : 2 * s.length + 1 < fuel + 1)
    (hg : 2 * (unifyNewlines s).length + 1 < g + 1) :
    Alike (readItems (fuel + 1) done s) (readItems (g + 1) done (unifyNewlines s)) := by
  rw [readItems, readItems]
  rcases (h.value g s (by omega) (by omega)).cases with
    ⟨v, r, hv, hv'⟩ | ⟨e, e', he, hx, hy⟩
  case inr =>
    rw [hx, hy]
    exact .stop he
  rw [hv, hv']
  dsimp only
  rw [skipBlank_unifyNewlines]
  rcases unifyNewlines_starts (c := ']') (by decide) (skipBlank r) with
    ⟨t, ht, ht'⟩ | ⟨hb, hb'⟩
  · rw [ht', ht]
    exact .ok
  rcases unifyNewlines_starts (c := ',') (by decide) (skipBlank r) with
    ⟨t, ht, ht'⟩ | ⟨hc, hc'⟩
  · have hlen := length_after hv ht
    have hlen' := length_after hv' ((skipBlank_unifyNewlines r).trans ht')
    rw [skipBlank_unifyNewlines] at hlen'
    rw [ht', ht]
    show Alike (readItems fuel _ (skipBlank t)) (readItems g _ (skipBlank (unifyNewlines t)))
    rw [skipBlank_unifyNewlines]
    exact h.items _ g _ (by omega) (by omega)
  · split
    · next ht => exact absurd ht (hb _)
    · next ht => exact absurd ht (hc _)
    · exact .stop .fault

/-- A member from its colon on. -/
theorem readMembers_colon {done : List (String × Json)} {k r' : List Char}
    (hk : readString ('"' :: r) [] r = .ok (k, r')) (ht : skipBlank r' = ':' :: t) :
    readMembers (fuel + 1) done ('"' :: r) =
      match readValue fuel (skipBlank t) with
      | .error e => .error e
      | .ok (v, r) =>
        match skipBlank r with
        | '\x7d' :: r =>
          .ok (.object () (Assoc.ofList ((String.ofList k, v) :: done).reverse), r)
        | ',' :: r => readMembers fuel ((String.ofList k, v) :: done) (skipBlank r)
        | r => .error (.fault .expectingComma r) := by
  rw [readMembers, hk]
  dsimp only
  rw [ht]
  rfl

theorem members_succ (h : ReadsAlike fuel) {done : List (String × Json)}
    (hf : 2 * s.length + 1 < fuel + 1) (hg : 2 * (unifyNewlines s).length + 1 < g + 1) :
    Alike (readMembers (fuel + 1) done s) (readMembers (g + 1) done (unifyNewlines s)) := by
  rcases unifyNewlines_starts (c := '"') (by decide) s with ⟨r, rfl, hu⟩ | ⟨hq, hq'⟩
  case inr =>
    rw [readMembers.eq_3 _ _ _ hq, readMembers.eq_3 _ _ _ hq']
    exact .stop .fault
  rw [hu] at hg ⊢
  rcases (readString_alike ('"' :: r) ('"' :: unifyNewlines r) [] r).cases with
    ⟨k, r', hk, hk'⟩ | ⟨e, e', he, hx, hy⟩
  case inr =>
    rw [readMembers, readMembers, hx, hy]
    exact .stop he
  rcases unifyNewlines_starts (c := ':') (by decide) (skipBlank r') with
    ⟨t, ht, ht'⟩ | ⟨hc, hc'⟩
  case inr =>
    rw [readMembers, readMembers, hk, hk']
    dsimp only
    rw [skipBlank_unifyNewlines]
    split
    · next ht => exact absurd ht (hc _)
    · exact .stop .fault
  rw [← skipBlank_unifyNewlines] at ht'
  rw [readMembers_colon hk ht, readMembers_colon hk' ht', skipBlank_unifyNewlines]
  have hlen := length_value hk ht
  have hlen' := length_value hk' ht'
  rw [skipBlank_unifyNewlines] at hlen'
  rcases (h.value g (skipBlank t) (by omega) (by omega)).cases with
    ⟨v, u, hv, hv'⟩ | ⟨e, e', he, hx, hy⟩
  case inr =>
    rw [hx, hy]
    exact .stop he
  rw [hv, hv']
  dsimp only
  rw [skipBlank_unifyNewlines]
  rcases unifyNewlines_starts (c := '\x7d') (by decide) (skipBlank u) with
    ⟨w, hw, hw'⟩ | ⟨hb, hb'⟩
  · rw [hw', hw]
    exact .ok
  rcases unifyNewlines_starts (c := ',') (by decide) (skipBlank u) with
    ⟨w, hw, hw'⟩ | ⟨hm, hm'⟩
  · have hnext := length_after hv hw
    have hnext' := length_after hv' ((skipBlank_unifyNewlines u).trans hw')
    rw [skipBlank_unifyNewlines] at hnext'
    rw [hw', hw]
    show Alike (readMembers fuel _ (skipBlank w)) (readMembers g _ (skipBlank (unifyNewlines w)))
    rw [skipBlank_unifyNewlines]
    exact h.members _ g _ (by omega) (by omega)
  · split
    · next hw => exact absurd hw (hb _)
    · next hw => exact absurd hw (hm _)
    · exact .stop .fault

end ReadsAlike

/-- Every reader of values takes the two texts alike, by induction on the fuel. -/
theorem readsAlike (fuel : Nat) : ReadsAlike fuel := by
  induction fuel with
  | zero => exact ⟨nofun, nofun, nofun⟩
  | succ fuel ih =>
    constructor
    · intro g s hf hg
      obtain ⟨g, rfl⟩ := Nat.exists_eq_add_one.2 (Nat.zero_lt_of_lt hg)
      exact ih.value_succ hf hg
    · intro done g s hf hg
      obtain ⟨g, rfl⟩ := Nat.exists_eq_add_one.2 (Nat.zero_lt_of_lt hg)
      exact ih.items_succ hf hg
    · intro done g s hf hg
      obtain ⟨g, rfl⟩ := Nat.exists_eq_add_one.2 (Nat.zero_lt_of_lt hg)
      exact ih.members_succ hf hg

/-! ### Whole texts -/

theorem readAll_unifyNewlines (s : List Char) :
    (∃ v, readAll s = .ok v ∧ readAll (unifyNewlines s) = .ok v) ∨
      ∃ e e', Stop.Alike e e' ∧ readAll s = .error e ∧ readAll (unifyNewlines s) = .error e' := by
  rcases unifyNewlines_starts (c := '\ufeff') (by decide) s with ⟨r, rfl, hu⟩ | ⟨hm, hm'⟩
  · rw [hu]
    exact .inr ⟨_, _, .fault, rfl, rfl⟩
  rw [readAll.eq_2 s hm, readAll.eq_2 _ hm', skipBlank_unifyNewlines]
  have hlen := length_skipBlank_le s
  have hlen' := length_skipBlank_unifyNewlines_le s
  have hread := (readsAlike (2 * s.length + 2)).value (2 * (unifyNewlines s).length + 2)
    (skipBlank s) (by omega) (by omega)
  rcases hread.cases with ⟨v, r, hv, hv'⟩ | ⟨e, e', he, hx, hy⟩
  · rw [hv, hv']
    dsimp only
    rw [skipBlank_unifyNewlines]
    by_cases hr : skipBlank r = []
    · rw [hr]
      exact .inl ⟨v, rfl, rfl⟩
    · obtain ⟨c, t, ht⟩ := List.exists_cons_of_ne_nil hr
      obtain ⟨c', t', ht'⟩ := List.exists_cons_of_ne_nil (unifyNewlines_eq_nil.not.2 hr)
      rw [ht', ht]
      exact .inr ⟨_, _, .fault, rfl, rfl⟩
  · rw [hx, hy]
    exact .inr ⟨e, e', he, rfl, rfl⟩

/-- **The line ends of a text do not matter to the reader.**  With one kind of line end it is
read for the same value, or has the same fault at some place, or the same number with too
many digits. -/
theorem read_unifyNewlines (s : String) :
    (∃ v, read s = .ok v ∧ read (String.ofList (unifyNewlines s.toList)) = .ok v) ∨
      (∃ f line column offset line' column' offset',
        read s = .error (.fault f line column offset) ∧
          read (String.ofList (unifyNewlines s.toList)) =
            .error (.fault f line' column' offset')) ∨
      ∃ n, read s = .error (.tooManyDigits n) ∧
        read (String.ofList (unifyNewlines s.toList)) = .error (.tooManyDigits n) := by
  unfold read
  rw [String.toList_ofList]
  rcases readAll_unifyNewlines s.toList with ⟨v, hv, hv'⟩ | ⟨e, e', he, hx, hy⟩
  · rw [hv, hv']
    exact .inl ⟨v, rfl, rfl⟩
  · rw [hx, hy]
    cases he with
    | fault => exact .inr (.inl ⟨_, _, _, _, _, _, _, rfl, rfl⟩)
    | tooManyDigits => exact .inr (.inr ⟨_, rfl, rfl⟩)

end JsonPaths.Json
