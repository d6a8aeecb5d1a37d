/-
JsonPaths/Proofs/Path/Accepted.lean

The reader of path texts accepts its grammar.

The reader deletes markers, splits at dots and cuts each piece at brackets; the
grammar derives a text from the front.  Each part of the reader is matched with the
part of the grammar that it reads (`Reads`), in three outcomes: steps, an index with
too many digits, a fault.  The induction follows the separators, `]` within a segment
and `.` between segments.
-/
import Mathlib.Logic.Basic
import Mathlib.Tactic.ByContra
import JsonPaths.Error
import JsonPaths.Proofs.Except
import JsonPaths.Proofs.Path.Grammar

namespace JsonPaths

namespace Path

/-! ### Outcomes -/

/-- `Reads r ok long`: the outcome `r` is steps with `ok`, or an index with too many
digits, `n` of them with `long n`, or a fault, and then there is neither. -/
structure Reads (r : Except PathStop (List Step)) (ok : List Step → Prop)
    (long : Nat → Prop) : Prop where
  ok_iff : ∀ ss, r = .ok ss ↔ ok ss
  long_iff : ∀ n, r = .error (.tooManyDigits n) ↔ long n

namespace Reads

variable {r r' : Except PathStop (List Step)} {ok ok' : List Step → Prop}
  {long long' : Nat → Prop}

theorem congr (h : Reads r ok long) (hok : ∀ ss, ok' ss ↔ ok ss)
    (hlong : ∀ n, long' n ↔ long n) : Reads r ok' long' where
  ok_iff ss := (h.ok_iff ss).trans (hok ss).symm
  long_iff n := (h.long_iff n).trans (hlong n).symm

theorem of_fault {f : PathFault} (hok : ∀ ss, ¬ ok ss) (hlong : ∀ n, ¬ long n) :
    Reads (.error (.fault f)) ok long where
  ok_iff ss := iff_of_false nofun (hok ss)
  long_iff n := iff_of_false nofun (hlong n)

theorem of_long {k : Nat} (hok : ∀ ss, ¬ ok ss) (hlong : ∀ n, long n ↔ n = k) :
    Reads (.error (.tooManyDigits k)) ok long where
  ok_iff ss := iff_of_false nofun (hok ss)
  long_iff n := by
    rw [hlong]
    constructor
    · rintro ⟨⟩
      rfl
    · rintro rfl
      rfl

theorem of_ok {ss₀ : List Step} (hok : ∀ ss, ok ss ↔ ss = ss₀) (hlong : ∀ n, ¬ long n) :
    Reads (.ok ss₀) ok long where
  ok_iff ss := by
    rw [hok]
    constructor
    · rintro ⟨⟩
      rfl
    · rintro rfl
      rfl
  long_iff n := iff_of_false nofun (hlong n)

theorem map (h : Reads r ok long) (f : List Step → List Step) :
    Reads (r.map f) (fun ss => ∃ rs, ok rs ∧ ss = f rs) long where
  ok_iff ss := by
    rw [Except.map_eq_ok]
    simp only [h.ok_iff]
  long_iff n := Except.map_eq_error.trans (h.long_iff n)

/-- Steps that are read in two parts; the second part is not read if the first stops. -/
theorem append (h : Reads r ok long) (h' : Reads r' ok' long') :
    Reads (r.bind fun fs => r'.map (fs ++ ·))
      (fun ss => ∃ fs rs, ok fs ∧ ok' rs ∧ ss = fs ++ rs)
      (fun n => long n ∨ (∃ fs, ok fs) ∧ long' n) where
  ok_iff ss := by
    simp only [← h.ok_iff, ← h'.ok_iff]
    cases r with
    | error e => simp [Except.bind]
    | ok fs => simp [Except.bind, Except.map_eq_ok]
  long_iff n := by
    simp only [← h.ok_iff, ← h.long_iff, ← h'.long_iff]
    cases r with
    | error e => simp [Except.bind]
    | ok fs => simp [Except.bind, Except.map_eq_error]

end Reads

/-! ### Indexes -/

section Indexes

variable {segment : List Char}

theorem readIndex_append {ds : List Char} (h : ']' ∉ ds) (token r : List Char) :
    readIndex segment token (ds ++ ']' :: r) =
      readIndex segment (ds.reverse ++ token) (']' :: r) := by
  induction ds generalizing token with
  | nil => rfl
  | cons d ds ih =>
    obtain ⟨hd, hds⟩ := not_or.1 (fun h' => h (List.mem_cons.2 h'))
    rw [List.cons_append, readIndex, if_neg (Ne.symm hd), ih hds]
    simp

theorem readIndex_of_notMem {r : List Char} (h : ']' ∉ r) (token : List Char) :
    readIndex segment token r = .error (.fault (.unterminatedIndex segment)) := by
  induction r generalizing token with
  | nil => rfl
  | cons c r ih =>
    obtain ⟨hc, hr⟩ := not_or.1 (fun h' => h (List.mem_cons.2 h'))
    rw [readIndex, if_neg (Ne.symm hc), ih hr]

/-- The check of the characters between brackets. -/
theorem badIndex_iff {ds : List Char} :
    (ds.reverse.isEmpty || !ds.reverse.all Char.isDigit) = true ↔ ¬ IsDigits ds := by
  rw [Bool.or_eq_true, Bool.not_eq_true', List.isEmpty_reverse, List.all_reverse,
    List.isEmpty_iff, List.all_eq_false]
  constructor
  · rintro (h | ⟨c, hc, hd⟩) hds
    · exact hds.ne_nil h
    · exact hd (hds.digit c hc)
  · intro h
    by_contra hn
    rw [not_or, not_exists] at hn
    exact h ⟨hn.1, fun c hc => by_contra fun hd => hn.2 c ⟨hc, hd⟩⟩

/-- Brackets are read by what is in them. -/
theorem readIndexes_bracket {ds : List Char} (h : ']' ∉ ds) (r : List Char) :
    readIndexes segment ('[' :: (ds ++ ']' :: r)) =
      if IsDigits ds then
        if Text.digitLimit < ds.length then .error (.tooManyDigits ds.length)
        else (readIndexes segment r).map (.index (Nat.ofDigitChars 10 ds 0) :: ·)
      else .error (.fault (.badIndex ds)) := by
  rw [readIndexes, if_pos rfl, readIndex_append h, List.append_nil, readIndex, if_pos rfl]
  simp only [badIndex_iff, List.reverse_reverse, List.length_reverse]
  by_cases hd : IsDigits ds
  · rw [if_neg (not_not.2 hd), if_pos hd]
  · rw [if_pos hd, if_neg hd]

/-- Induction on the indexes of a segment, from one pair of brackets to the next. -/
theorem brackets_ind {motive : List Char → Prop} (nil : motive [])
    (other : ∀ c r, c ≠ '[' → motive (c :: r))
    (unclosed : ∀ r, ']' ∉ r → motive ('[' :: r))
    (closed : ∀ ds r, ']' ∉ ds → motive r → motive ('[' :: (ds ++ ']' :: r)))
    (s : List Char) : motive s := by
  induction s using Text.separated_ind ']' with
  | last s h =>
    cases s with
    | nil => exact nil
    | cons c r =>
      by_cases hc : c = '['
      · rw [hc]
        exact unclosed r (fun h' => h (List.mem_cons_of_mem c h'))
      · exact other c r hc
  | cons s r h ih =>
    cases s with
    | nil => exact other ']' r (by decide)
    | cons c ds =>
      by_cases hc : c = '['
      · rw [hc]
        exact closed ds r (fun h' => h (List.mem_cons_of_mem c h')) ih
      · exact other c _ hc

/-- Where the text after brackets is read as the grammar derives it, so is the text with
them. -/
theorem reads_bracket {ds r : List Char} (hds : ']' ∉ ds)
    (hr : Reads (readIndexes segment r) (Indexes r)
      (LongIndexAfter (fun t => ∃ ss, Indexes t ss) r)) :
    Reads (readIndexes segment ('[' :: (ds ++ ']' :: r))) (Indexes ('[' :: (ds ++ ']' :: r)))
      (LongIndexAfter (fun t => ∃ ss, Indexes t ss) ('[' :: (ds ++ ']' :: r))) := by
  rw [readIndexes_bracket hds]
  by_cases hd : IsDigits ds
  · rw [if_pos hd]
    by_cases hl : Text.digitLimit < ds.length
    · -- this index is too long, whatever comes after it
      rw [if_pos hl]
      apply Reads.of_long
      · intro ss h
        exact absurd hl (Nat.not_lt.2 ((indexes_bracket hds).1 h).2.1)
      · intro n
        rw [longIndexAfter_bracket hds]
        constructor
        · rintro (h | ⟨-, h, -⟩)
          · exact h.count
          · exact absurd hl (Nat.not_lt.2 h)
        · rintro rfl
          exact .inl ⟨hd, hl, rfl⟩
    · -- it is read, and the text after it decides
      rw [if_neg hl]
      have hle : ds.length ≤ Text.digitLimit := Nat.not_lt.1 hl
      apply (hr.map _).congr
      · intro ss
        simp only [indexes_bracket hds, hd, hle, true_and]
      · intro n
        rw [longIndexAfter_bracket hds]
        constructor
        · rintro (h | ⟨-, -, h⟩)
          · exact absurd h.long hl
          · exact h
        · intro h
          exact .inr ⟨hd, hle, h⟩
  · rw [if_neg hd]
    apply Reads.of_fault
    · intro ss h
      exact hd ((indexes_bracket hds).1 h).1
    · intro n h
      rcases (longIndexAfter_bracket hds).1 h with h | ⟨h, -⟩
      · exact hd h.digits
      · exact hd h

/-- **Indexes** are read as the grammar derives them. -/
theorem reads_indexes (s : List Char) :
    Reads (readIndexes segment s) (Indexes s)
      (LongIndexAfter (fun t => ∃ ss, Indexes t ss) s) := by
  induction s using brackets_ind with
  | nil =>
    refine .of_ok (fun ss => ?_) ?_
    · constructor
      · rintro ⟨⟩
        rfl
      · rintro rfl
        exact .nil
    · rintro n ⟨before, ds, after, h, -⟩
      simp at h
  | other c r hc =>
    rw [readIndexes, if_neg hc]
    apply Reads.of_fault
    · rintro ss ⟨⟩
      exact hc rfl
    · rintro n ⟨before, ds, after, h, ⟨ss, hb⟩, -⟩
      cases hb with
      | nil => exact hc (List.cons.inj h).1
      | cons => exact hc (List.cons.inj h).1
  | unclosed r hr =>
    rw [readIndexes, if_pos rfl, readIndex_of_notMem hr]
    apply Reads.of_fault
    · rintro ss ⟨⟩
      exact hr (List.mem_append_right _ List.mem_cons_self)
    · rintro n ⟨before, ds, after, h, -⟩
      -- the closing bracket of the long index is not the first character
      have hclose : ']' ∈ '[' :: r := by rw [h]; simp
      exact hr ((List.mem_cons.1 hclose).resolve_left (by decide))
  | closed ds r hds ih => exact reads_bracket hds ih

end Indexes

/-! ### Segments -/

/-- Nothing, or a text that starts with a bracket. -/
def Opens (r : List Char) : Prop := ∀ c ∈ r.head?, (c != '[') = false

theorem opens_nil : Opens [] := nofun

theorem opens_cons (r : List Char) : Opens ('[' :: r) := by
  rintro c ⟨⟩
  rfl

theorem Indexes.opens {r : List Char} {ss : List Step} (h : Indexes r ss) : Opens r := by
  cases h with
  | nil => exact opens_nil
  | cons => exact opens_cons _

theorem Opens.append {r q : List Char} (h : Opens r) : Opens (r ++ '[' :: q) := by
  cases r with
  | nil => exact opens_cons q
  | cons c r => exact h

theorem ne_bracket {name : List Char} (h : '[' ∉ name) : ∀ c ∈ name, (c != '[') = true := by
  intro c hc
  apply bne_iff_ne.2
  rintro rfl
  exact h hc

/-- A text is cut at its first bracket in one way. -/
theorem bracket_inj {s t r q : List Char} (hs : '[' ∉ s) (ht : '[' ∉ t) (hr : Opens r)
    (hq : Opens q) (h : s ++ r = t ++ q) : s = t ∧ r = q :=
  Text.cut_inj (ne_bracket hs) (ne_bracket ht) hr hq h

theorem IsName.notMem {name : List Char} (h : IsName name) : '[' ∉ name := by
  intro hm
  exact (h.plain _ hm).2.1 rfl

theorem exists_cut (s : List Char) : ∃ name r, s = name ++ r ∧ '[' ∉ name ∧ Opens r := by
  by_cases h : '[' ∈ s
  · obtain ⟨name, r, rfl, hn⟩ := List.eq_append_cons_of_mem h
    exact ⟨name, _, rfl, hn, opens_cons r⟩
  · exact ⟨s, [], (List.append_nil s).symm, h, opens_nil⟩

/-- A segment is a name before its first bracket, or nothing if it is bare. -/
theorem segment_append {bare : Bool} {name r : List Char} {ss : List Step}
    (hn : '[' ∉ name) (hr : Opens r) :
    Segment bare (name ++ r) ss ↔
      IsName name ∧ (∃ rs, Indexes r rs ∧ ss = .field (String.ofList name) :: rs) ∨
        name = [] ∧ bare = true ∧ r ≠ [] ∧ Indexes r ss := by
  constructor
  · intro h
    generalize ht : name ++ r = t at h
    cases h with
    | named hm hq =>
      obtain ⟨rfl, rfl⟩ := bracket_inj hn hm.notMem hr hq.opens ht
      exact .inl ⟨hm, _, hq, rfl⟩
    | bare ht' hq =>
      obtain ⟨rfl, rfl⟩ := bracket_inj hn (List.not_mem_nil : '[' ∉ []) hr hq.opens ht
      exact .inr ⟨rfl, rfl, ht', hq⟩
  · rintro (⟨hm, rs, hi, rfl⟩ | ⟨rfl, rfl, hne, hi⟩)
    · exact .named hm hi
    · exact .bare hne hi

/-- A long index comes in a segment after indexes, if what is before the first
bracket may be there. -/
theorem longIndexAfter_cut {bare : Bool} {name r : List Char} {n : Nat}
    (hdot : '.' ∉ name ++ r) (hn : '[' ∉ name) (hr : Opens r) :
    LongIndexAfter (Stem bare) (name ++ r) n ↔
      (IsName name ∨ name = [] ∧ bare = true) ∧
        LongIndexAfter (fun t => ∃ ss, Indexes t ss) r n := by
  constructor
  · rintro ⟨before, ds, after, ht, hb, he⟩
    rcases hb with ⟨hbare, rfl⟩ | ⟨ss, hb⟩
    · obtain ⟨rfl, rfl⟩ := bracket_inj hn (List.not_mem_nil : '[' ∉ []) hr (opens_cons _) ht
      exact ⟨.inr ⟨rfl, hbare⟩, [], ds, after, rfl, ⟨[], .nil⟩, he⟩
    · have hdot' : '.' ∉ before := fun h => hdot (ht ▸ List.mem_append_left _ h)
      obtain ⟨m, q, rfl, hm, hq⟩ := exists_cut before
      rw [List.append_assoc] at ht
      obtain ⟨rfl, rfl⟩ := bracket_inj hn hm hr hq.append ht
      rcases (segment_append hm hq).1 ((segments_of_notMem hdot').1 hb) with
        ⟨hname, rs, hi, -⟩ | ⟨rfl, hbare, -, hi⟩
      · exact ⟨.inl hname, q, ds, after, rfl, ⟨rs, hi⟩, he⟩
      · exact ⟨.inr ⟨rfl, hbare⟩, q, ds, after, rfl, ⟨ss, hi⟩, he⟩
  · rintro ⟨hname, before, ds, after, rfl, ⟨ss, hi⟩, he⟩
    refine ⟨name ++ before, ds, after, (List.append_assoc _ _ _).symm, ?_, he⟩
    rcases hname with hname | ⟨rfl, hbare⟩
    · exact .inr ⟨_, .last (.named hname hi)⟩
    · -- nothing is before a first long index that follows no name
      by_cases hne : before = []
      · exact .inl ⟨hbare, hne⟩
      · rw [hbare]
        exact .inr ⟨_, .last (.bare hne hi)⟩

theorem isName_iff {name r : List Char} (hdot : '.' ∉ name ++ r) (hn : '[' ∉ name) :
    IsName name ↔ name ≠ [] ∧ ']' ∉ name := by
  constructor
  · intro h
    exact ⟨h.ne_nil, fun hm => (h.plain _ hm).2.2 rfl⟩
  · rintro ⟨hne, hc⟩
    refine ⟨hne, fun c hm => ⟨?_, ?_, ?_⟩⟩
    · rintro rfl
      exact hdot (List.mem_append_left r hm)
    · rintro rfl
      exact hn hm
    · rintro rfl
      exact hc hm

/-- A segment is read by what is before its first bracket. -/
theorem readSegment_append {bare : Bool} {name r : List Char} (hn : '[' ∉ name)
    (hr : Opens r) :
    readSegment bare (name ++ r) =
      if ']' ∈ name then .error (.fault (.strayBracket (name ++ r)))
      else if name = [] then
        if bare = true ∧ r ≠ [] then readIndexes (name ++ r) r
        else .error (.fault .emptyName)
      else (readIndexes (name ++ r) r).map (.field (String.ofList name) :: ·) := by
  obtain ⟨hname, hrest⟩ := Text.cut_append (ne_bracket hn) hr
  unfold readSegment
  rw [hname, hrest]
  simp

/-- **A segment** is read as the grammar derives it. -/
theorem reads_segment {bare : Bool} {s : List Char} (h : '.' ∉ s) :
    Reads (readSegment bare s) (Segment bare s) (LongIndexAfter (Stem bare) s) := by
  obtain ⟨name, r, rfl, hn, hr⟩ := exists_cut s
  rw [readSegment_append hn hr]
  have hok : ∀ ss, Segment bare (name ++ r) ss ↔ _ := fun ss => segment_append hn hr
  have hlong : ∀ n, LongIndexAfter (Stem bare) (name ++ r) n ↔ _ := fun n =>
    longIndexAfter_cut h hn hr
  simp only [isName_iff h hn] at hok hlong
  by_cases hc : ']' ∈ name
  · -- a bracket in the name: there is no name, and not nothing either
    have hne : name ≠ [] := List.ne_nil_of_mem hc
    rw [if_pos hc]
    apply Reads.of_fault
    · intro ss hs
      rcases (hok ss).1 hs with ⟨⟨-, h⟩, -⟩ | ⟨h, -⟩
      · exact h hc
      · exact hne h
    · intro n hs
      rcases ((hlong n).1 hs).1 with ⟨-, h⟩ | ⟨h, -⟩
      · exact h hc
      · exact hne h
  · rw [if_neg hc]
    by_cases he : name = []
    · -- no name, which only the first segment may do without
      rw [if_pos he]
      by_cases hb : bare = true ∧ r ≠ []
      · rw [if_pos hb]
        apply (reads_indexes r).congr
        · intro ss
          rw [hok]
          simp [he, hb]
        · intro n
          rw [hlong]
          simp [he, hb]
      · rw [if_neg hb]
        apply Reads.of_fault
        · intro ss hs
          rcases (hok ss).1 hs with ⟨⟨hne, -⟩, -⟩ | ⟨-, hbare, hr, -⟩
          · exact hne he
          · exact hb ⟨hbare, hr⟩
        · intro n hs
          obtain ⟨hname, before, ds, after, rfl, -⟩ := (hlong n).1 hs
          rcases hname with ⟨hne, -⟩ | ⟨-, hbare⟩
          · exact hne he
          · exact hb ⟨hbare, by simp⟩
    · rw [if_neg he]
      apply ((reads_indexes r).map _).congr
      · intro ss
        rw [hok]
        simp [he, hc]
      · intro n
        rw [hlong]
        simp [he, hc]

theorem readSegments_cons (bare : Bool) (s : List Char) (ps : List (List Char)) :
    readSegments bare (s :: ps) =
      (readSegment bare s).bind fun fs => (readSegments false ps).map (fs ++ ·) := by
  rw [readSegments]
  cases readSegment bare s with
  | error e => rfl
  | ok fs => rfl

/-- **Segments in a row** are read as the grammar derives them. -/
theorem reads_segments (bare : Bool) (s : List Char) :
    Reads (readSegments bare (Text.pieces '.' s)) (Segments bare s)
      (LongIndexAfter (Stem bare) s) := by
  induction s using Text.separated_ind '.' generalizing bare with
  | last s h =>
    have hsingle : readSegments bare [s] = readSegment bare s := by
      rw [readSegments_cons]
      cases readSegment bare s with
      | error e => rfl
      | ok fs => exact congrArg Except.ok (List.append_nil fs)
    rw [Text.pieces_of_notMem h, hsingle]
    apply (reads_segment h).congr
    · intro ss
      exact segments_of_notMem h
    · intro n
      rfl
  | cons s r h ih =>
    rw [Text.pieces_append h, readSegments_cons]
    apply ((reads_segment h).append (ih false)).congr
    · intro ss
      exact segments_append h
    · intro n
      exact longIndexAfter_append h

/-! ### Whole texts -/

theorem unmarked_iff {s b : List Char} : Unmarked s b ↔ dropMarkers s = b := by
  constructor
  · intro h
    induction h with
    | nil => rfl
    | marker _ ih => exact ih
    | other hc _ ih =>
      rw [dropMarkers, ih]
      intro r h₁ h₂
      exact hc r (by rw [h₁, h₂])
  · rintro rfl
    fun_induction dropMarkers s with
    | case1 r ih => exact .marker ih
    | case2 c r hc ih =>
      refine .other (fun q hq => ?_) ih
      obtain ⟨h₁, h₂⟩ := List.cons.inj hq
      exact hc q h₁ h₂
    | case3 => exact .nil

/-- A marker within brackets leaves an index. -/
example : dropMarkers "a[[]0]".toList = "a[0]".toList := by decide

theorem Segment.ne_nil {bare : Bool} {s : List Char} {steps : List Step}
    (h : Segment bare s steps) : s ≠ [] := by
  cases h with
  | named hn _ => exact List.append_ne_nil_of_left_ne_nil hn.ne_nil _
  | bare hr _ => exact hr

theorem Segments.ne_nil {bare : Bool} {s : List Char} {steps : List Step}
    (h : Segments bare s steps) : s ≠ [] := by
  cases h with
  | last hs => exact hs.ne_nil
  | cons hs _ => exact List.append_ne_nil_of_left_ne_nil hs.ne_nil _

/-- The three outcomes of a text that starts with a dot, by its unmarked rest. -/
theorem readChars_dot (s : List Char) :
    readChars ('.' :: s) =
      if dropMarkers s = [] then .ok []
      else readSegments true (Text.pieces '.' (dropMarkers s)) := by
  simp [readChars]

theorem readChars_of_ne {s : List Char} (h : ∀ r, s ≠ '.' :: r) :
    readChars s = .error (.fault .noLeadingDot) := by
  unfold readChars
  split
  · exact absurd rfl (h _)
  · rfl

theorem denotes_iff {path : String} {s : List Char} {steps : List Step}
    (h : path.toList = '.' :: s) :
    Denotes path steps ↔
      dropMarkers s = [] ∧ steps = [] ∨ Segments true (dropMarkers s) steps := by
  constructor
  · rintro ⟨t, b, ht, hb, hsteps⟩
    obtain rfl : s = t := (List.cons.inj (h.symm.trans ht)).2
    rwa [unmarked_iff.1 hb]
  · intro hsteps
    exact ⟨s, _, h, unmarked_iff.2 rfl, hsteps⟩

theorem overlong_iff {path : String} {s : List Char} {n : Nat} (h : path.toList = '.' :: s) :
    Overlong path n ↔ LongIndexAfter (Stem true) (dropMarkers s) n := by
  constructor
  · rintro ⟨t, b, ht, hb, hn⟩
    obtain rfl : s = t := (List.cons.inj (h.symm.trans ht)).2
    rwa [unmarked_iff.1 hb]
  · intro hn
    exact ⟨s, _, h, unmarked_iff.2 rfl, hn⟩

/-- **A path text** is read as the grammar derives it. -/
theorem reads_parse (path : String) :
    Reads (parse path) (Denotes path) (Overlong path) := by
  by_cases h : ∃ s, path.toList = '.' :: s
  · obtain ⟨s, hs⟩ := h
    rw [parse, hs, readChars_dot]
    have hok : ∀ steps, Denotes path steps ↔ _ := fun steps => denotes_iff hs
    have hlong : ∀ n, Overlong path n ↔ _ := fun n => overlong_iff hs
    by_cases hd : dropMarkers s = []
    · -- the root: a segment never derives an empty text
      rw [if_pos hd]
      apply Reads.of_ok
      · intro steps
        rw [hok, hd]
        constructor
        · rintro (⟨-, h⟩ | h)
          · exact h
          · exact absurd rfl h.ne_nil
        · intro h
          exact .inl ⟨rfl, h⟩
      · intro n h
        obtain ⟨before, ds, after, h, -⟩ := (hlong n).1 h
        rw [hd] at h
        simp at h
    · rw [if_neg hd]
      apply (reads_segments true _).congr
      · intro steps
        rw [hok]
        constructor
        · rintro (⟨h, -⟩ | h)
          · exact absurd h hd
          · exact h
        · exact .inr
      · exact hlong
  · rw [parse, readChars_of_ne (not_exists.1 h)]
    apply Reads.of_fault
    · rintro steps ⟨s, -, hs, -⟩
      exact h ⟨s, hs⟩
    · rintro n ⟨s, -, hs, -⟩
      exact h ⟨s, hs⟩

theorem parse_eq_ok {path : String} {steps : List Step} :
    parse path = .ok steps ↔ Denotes path steps :=
  (reads_parse path).ok_iff steps

/-! ### The steps of a path -/

section Steps

variable {P : Step → Prop} (hfield : ∀ name, IsName name → P (.field (String.ofList name)))
  (hindex : ∀ ds, IsDigits ds → ds.length ≤ Text.digitLimit →
    P (.index (Nat.ofDigitChars 10 ds 0)))

include hindex

theorem Indexes.forall_mem {r : List Char} {ss : List Step} (h : Indexes r ss) :
    ∀ s ∈ ss, P s := by
  induction h with
  | nil => exact List.forall_mem_nil _
  | cons hd hl _ ih => exact List.forall_mem_cons.2 ⟨hindex _ hd hl, ih⟩

include hfield

theorem Segment.forall_mem {bare : Bool} {r : List Char} {ss : List Step}
    (h : Segment bare r ss) : ∀ s ∈ ss, P s := by
  cases h with
  | named hn hr => exact List.forall_mem_cons.2 ⟨hfield _ hn, hr.forall_mem hindex⟩
  | bare _ hr => exact hr.forall_mem hindex

theorem Segments.forall_mem {bare : Bool} {r : List Char} {ss : List Step}
    (h : Segments bare r ss) : ∀ s ∈ ss, P s := by
  induction h with
  | last hs => exact hs.forall_mem hfield hindex
  | cons hs _ ih => exact List.forall_mem_append.2 ⟨hs.forall_mem hfield hindex, ih⟩

/-- The steps of a path come from names and from digits. -/
theorem Denotes.forall_mem {path : String} {steps : List Step} (h : Denotes path steps) :
    ∀ s ∈ steps, P s := by
  obtain ⟨s, b, -, -, ⟨-, rfl⟩ | hs⟩ := h
  · exact List.forall_mem_nil _
  · exact hs.forall_mem hfield hindex

end Steps

/-- The steps of a path can be built. -/
theorem Denotes.valid {path : String} {steps : List Step} (h : Denotes path steps) :
    ∀ s ∈ steps, s.Valid := by
  refine h.forall_mem (fun name hn => ?_) fun ds _ _ => ?_
  · show Step.ofName _ = _
    rw [Step.ofName, if_neg]
    intro he
    exact hn.ne_nil (by simpa using congrArg String.toList he)
  · show Step.ofPlace _ = _
    rw [Step.ofPlace, if_neg (Int.not_lt.2 (Int.natCast_nonneg _)), Int.toNat_natCast]

/-! ### The main result -/

theorem ofJson_eq_ok {path : String} {steps : List Step} :
    Path.ofJson (.string path) = .ok steps ↔ Denotes path steps := by
  rw [← parse_eq_ok, Path.ofJson]
  rcases parse path with (_ | _) | _ <;> simp

theorem ofJson_eq_long {path : String} {n : Nat} :
    Path.ofJson (.string path) = .error (.tooManyDigits n) ↔ Overlong path n := by
  rw [← (reads_parse path).long_iff, Path.ofJson]
  rcases parse path with (_ | _) | _ <;> simp

end Path

end JsonPaths
