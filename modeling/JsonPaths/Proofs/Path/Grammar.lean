/-
JsonPaths/Proofs/Path/Grammar.lean

The grammar of path texts.

    path      =  '.'  |  '.' first ('.' segment)*
    segment   =  name index*
    first     =  segment  |  index index*
    name      =  one or more characters other than '.', '[' and ']'
    index     =  '[' one or more digits ']', at most `Text.digitLimit` digits

The text after the leading dot is taken without its markers `[]`, which are
found in one pass from left to right (`Path.Unmarked`).  A derivation comes with
the steps that it denotes: a field for every name, and the decimal value of the
digits for every index.

A text that stops the reader at an index with too many digits is one that has a
path before that index (`Path.Overlong`).
-/
import JsonPaths.Path.Parser
import JsonPaths.Proofs.Text.Pieces

namespace JsonPaths

/-- A step that can be built: its name has a character, its place is not
negative. -/
def Step.Valid : Step → Prop
  | .field name => Step.ofName name = .ok (.field name)
  | .index i => Step.ofPlace i = .ok (.index i)

namespace Path

/-! ### Names and indexes -/

/-- The characters of a name. -/
structure IsName (name : List Char) : Prop where
  ne_nil : name ≠ []
  plain : ∀ c ∈ name, c ≠ '.' ∧ c ≠ '[' ∧ c ≠ ']'

/-- One or more digits. -/
structure IsDigits (ds : List Char) : Prop where
  ne_nil : ds ≠ []
  digit : ∀ c ∈ ds, c.isDigit = true

instance (ds : List Char) : Decidable (IsDigits ds) :=
  decidable_of_iff (ds ≠ [] ∧ ds.all Char.isDigit = true)
    ⟨fun h => ⟨h.1, List.all_eq_true.1 h.2⟩, fun h => ⟨h.ne_nil, List.all_eq_true.2 h.digit⟩⟩

/-- Indexes in a row. -/
inductive Indexes : List Char → List Step → Prop
  | nil : Indexes [] []
  | cons {ds r : List Char} {ss : List Step} :
      IsDigits ds → ds.length ≤ Text.digitLimit → Indexes r ss →
      Indexes ('[' :: (ds ++ ']' :: r)) (.index (Nat.ofDigitChars 10 ds 0) :: ss)

/-! ### Segments -/

/-- A segment, which may lack a name if it is `bare`. -/
inductive Segment : Bool → List Char → List Step → Prop
  | named {bare : Bool} {name r : List Char} {ss : List Step} :
      IsName name → Indexes r ss →
      Segment bare (name ++ r) (.field (String.ofList name) :: ss)
  | bare {r : List Char} {ss : List Step} :
      r ≠ [] → Indexes r ss → Segment true r ss

/-- One or more segments with dots between them, of which the first may be
`bare`. -/
inductive Segments : Bool → List Char → List Step → Prop
  | last {bare : Bool} {s : List Char} {ss : List Step} :
      Segment bare s ss → Segments bare s ss
  | cons {bare : Bool} {s r : List Char} {ss rs : List Step} :
      Segment bare s ss → Segments false r rs → Segments bare (s ++ '.' :: r) (ss ++ rs)

/-! ### Texts -/

/-- `Unmarked s b`: `b` is `s` without the markers `[]`, each found to the right of
the last. -/
inductive Unmarked : List Char → List Char → Prop
  | nil : Unmarked [] []
  | marker {s b : List Char} : Unmarked s b → Unmarked ('[' :: ']' :: s) b
  | other {c : Char} {s b : List Char} :
      (∀ r, c :: s ≠ '[' :: ']' :: r) → Unmarked s b → Unmarked (c :: s) (c :: b)

/-- `Denotes path steps`: the text is a path with these steps. -/
def Denotes (path : String) (steps : List Step) : Prop :=
  ∃ s b, path.toList = '.' :: s ∧ Unmarked s b ∧
    (b = [] ∧ steps = [] ∨ Segments true b steps)

/-- Digits that are too many for an index, and how many they are. -/
structure Exceeds (ds : List Char) (n : Nat) : Prop where
  digits : IsDigits ds
  long : Text.digitLimit < ds.length
  count : n = ds.length

/-- `LongIndexAfter P s n`: an index of `n` digits, which is too many, comes in `s`
after a text with `P`. -/
def LongIndexAfter (P : List Char → Prop) (s : List Char) (n : Nat) : Prop :=
  ∃ before ds after, s = before ++ '[' :: (ds ++ ']' :: after) ∧ P before ∧ Exceeds ds n

/-- A text that an index may follow: segments, or nothing where a name may lack. -/
def Stem (bare : Bool) (s : List Char) : Prop :=
  bare = true ∧ s = [] ∨ ∃ steps, Segments bare s steps

/-- `Overlong path n`: an index of `n` digits, which is too many, comes after a text
that an index may follow. -/
def Overlong (path : String) (n : Nat) : Prop :=
  ∃ s b, path.toList = '.' :: s ∧ Unmarked s b ∧ LongIndexAfter (Stem true) b n

/-! ### Putting derivations together -/

theorem Indexes.append {r q : List Char} {rs qs : List Step} (hr : Indexes r rs)
    (hq : Indexes q qs) : Indexes (r ++ q) (rs ++ qs) := by
  induction hr with
  | nil => exact hq
  | cons hd hl _ ih => simpa using Indexes.cons hd hl ih

/-- Indexes make a segment longer. -/
theorem Segment.append_indexes {bare : Bool} {s r : List Char} {ss rs : List Step}
    (hs : Segment bare s ss) (hr : Indexes r rs) : Segment bare (s ++ r) (ss ++ rs) := by
  cases hs with
  | named hn hq =>
    rw [List.append_assoc]
    exact .named hn (hq.append hr)
  | bare hne hq => exact .bare (List.append_ne_nil_of_left_ne_nil hne _) (hq.append hr)

/-- Indexes make the last segment longer. -/
theorem Segments.append_indexes {bare : Bool} {s r : List Char} {ss rs : List Step}
    (hs : Segments bare s ss) (hr : Indexes r rs) : Segments bare (s ++ r) (ss ++ rs) := by
  induction hs with
  | last hs => exact .last (hs.append_indexes hr)
  | cons hs _ ih =>
    rw [List.append_assoc, List.cons_append, List.append_assoc]
    exact .cons hs ih

/-- A dot and segments with a name each come after segments. -/
theorem Segments.append {bare : Bool} {s r : List Char} {ss rs : List Step}
    (hs : Segments bare s ss) (hr : Segments false r rs) :
    Segments bare (s ++ '.' :: r) (ss ++ rs) := by
  induction hs with
  | last hs => exact .cons hs hr
  | cons hs _ ih =>
    rw [List.append_assoc, List.cons_append, List.append_assoc]
    exact .cons hs ih

/-! ### Taking derivations apart -/

theorem IsDigits.notMem {ds : List Char} (h : IsDigits ds) {c : Char} (hc : c.isDigit = false) :
    c ∉ ds := by
  intro hm
  rw [h.digit c hm] at hc
  exact Bool.noConfusion hc

/-- Brackets at the start of indexes hold the first of them. -/
theorem indexes_bracket {ds r : List Char} {ss : List Step} (h : ']' ∉ ds) :
    Indexes ('[' :: (ds ++ ']' :: r)) ss ↔
      IsDigits ds ∧ ds.length ≤ Text.digitLimit ∧
        ∃ rs, Indexes r rs ∧ ss = .index (Nat.ofDigitChars 10 ds 0) :: rs := by
  constructor
  · intro hi
    generalize ht : '[' :: (ds ++ ']' :: r) = t at hi
    cases hi with
    | nil => cases ht
    | @cons es q rs he hl hq =>
      have h' : ']' ∉ es := he.notMem rfl
      obtain ⟨rfl, rfl⟩ := Text.separated_inj h h' (List.cons.inj ht).2
      exact ⟨he, hl, rs, hq, rfl⟩
  · rintro ⟨hd, hl, rs, hr, rfl⟩
    exact .cons hd hl hr

/-- A long index comes after indexes that start with brackets: it is in the brackets
or after indexes in the rest. -/
theorem longIndexAfter_bracket {ds r : List Char} {n : Nat} (h : ']' ∉ ds) :
    LongIndexAfter (fun t => ∃ ss, Indexes t ss) ('[' :: (ds ++ ']' :: r)) n ↔
      Exceeds ds n ∨ IsDigits ds ∧ ds.length ≤ Text.digitLimit ∧
        LongIndexAfter (fun t => ∃ ss, Indexes t ss) r n := by
  constructor
  · rintro ⟨before, es, after, ht, ⟨ss, hb⟩, he⟩
    cases hb with
    | nil =>
      have h' : ']' ∉ es := he.digits.notMem rfl
      obtain ⟨rfl, rfl⟩ := Text.separated_inj h h' (List.cons.inj ht).2
      exact .inl he
    | @cons fs q rs hf hl hq =>
      have h' : ']' ∉ fs := hf.notMem rfl
      have ht' : ds ++ ']' :: r = fs ++ ']' :: (q ++ '[' :: (es ++ ']' :: after)) := by
        simpa using (List.cons.inj ht).2
      obtain ⟨rfl, rfl⟩ := Text.separated_inj h h' ht'
      exact .inr ⟨hf, hl, q, es, after, rfl, ⟨rs, hq⟩, he⟩
  · rintro (he | ⟨hd, hl, before, es, after, rfl, ⟨rs, hb⟩, he⟩)
    · exact ⟨[], ds, r, rfl, ⟨[], .nil⟩, he⟩
    · exact ⟨_, es, after, by simp, ⟨_, .cons hd hl hb⟩, he⟩

theorem Indexes.dot_notMem {r : List Char} {ss : List Step} (h : Indexes r ss) : '.' ∉ r := by
  induction h with
  | nil => exact List.not_mem_nil
  | cons hd _ _ ih =>
    have hd' : '.' ∉ _ := hd.notMem rfl
    simp [hd', ih]

theorem Segment.dot_notMem {bare : Bool} {s : List Char} {ss : List Step}
    (h : Segment bare s ss) : '.' ∉ s := by
  cases h with
  | named hn hr =>
    intro hm
    rcases List.mem_append.1 hm with hm | hm
    · exact (hn.plain _ hm).1 rfl
    · exact hr.dot_notMem hm
  | bare _ hr => exact hr.dot_notMem

/-- Without a dot there is one segment. -/
theorem segments_of_notMem {bare : Bool} {s : List Char} {ss : List Step} (h : '.' ∉ s) :
    Segments bare s ss ↔ Segment bare s ss := by
  constructor
  · intro hs
    cases hs with
    | last hs => exact hs
    | cons => exact absurd (List.mem_append_right _ List.mem_cons_self) h
  · exact .last

/-- The first segment ends at the first dot. -/
theorem segments_append {bare : Bool} {s r : List Char} {ss : List Step} (h : '.' ∉ s) :
    Segments bare (s ++ '.' :: r) ss ↔
      ∃ fs rs, Segment bare s fs ∧ Segments false r rs ∧ ss = fs ++ rs := by
  constructor
  · intro hs
    generalize ht : s ++ '.' :: r = t at hs
    cases hs with
    | last hs =>
      rw [← ht] at hs
      exact absurd (List.mem_append_right _ List.mem_cons_self) hs.dot_notMem
    | cons hf hr =>
      obtain ⟨rfl, rfl⟩ := Text.separated_inj h hf.dot_notMem ht
      exact ⟨_, _, hf, hr, rfl⟩
  · rintro ⟨fs, rs, hf, hr, rfl⟩
    exact .cons hf hr

/-- A long index within the first of several segments, or after that segment. -/
theorem longIndexAfter_append {bare : Bool} {s r : List Char} {n : Nat} (h : '.' ∉ s) :
    LongIndexAfter (Stem bare) (s ++ '.' :: r) n ↔
      LongIndexAfter (Stem bare) s n ∨
        (∃ fs, Segment bare s fs) ∧ LongIndexAfter (Stem false) r n := by
  constructor
  · rintro ⟨before, ds, after, ht, hb, he⟩
    by_cases hdot : '.' ∈ before
    · -- the first dot of `before` is the one after `s`
      obtain ⟨f, q, rfl, hf⟩ := List.eq_append_cons_of_mem hdot
      rw [List.append_assoc, List.cons_append] at ht
      obtain ⟨rfl, rfl⟩ := Text.separated_inj h hf ht
      rcases hb with ⟨-, hb⟩ | ⟨ss, hb⟩
      · exact absurd hb (by simp)
      · obtain ⟨fs, rs, hs, hq, -⟩ := (segments_append hf).1 hb
        exact .inr ⟨⟨fs, hs⟩, q, ds, after, rfl, .inr ⟨rs, hq⟩, he⟩
    · -- no dot in `before` nor in the index, so the first one is in `after`
      have hd : '.' ∉ before ++ '[' :: (ds ++ [']']) := by
        have hds : '.' ∉ ds := he.digits.notMem rfl
        simp [hdot, hds]
      have ht' : s ++ '.' :: r = (before ++ '[' :: (ds ++ [']'])) ++ after := by simpa using ht
      have ha : '.' ∈ after := by
        have : '.' ∈ (before ++ '[' :: (ds ++ [']'])) ++ after := ht' ▸ by simp
        exact (List.mem_append.1 this).resolve_left hd
      obtain ⟨a, q, rfl, haq⟩ := List.eq_append_cons_of_mem ha
      have hda : '.' ∉ (before ++ '[' :: (ds ++ [']'])) ++ a := by
        intro hm
        exact (List.mem_append.1 hm).elim hd haq
      rw [← List.append_assoc] at ht'
      obtain ⟨rfl, -⟩ := Text.separated_inj h hda ht'
      exact .inl ⟨before, ds, a, by simp, hb, he⟩
  · rintro (⟨before, ds, after, rfl, hb, he⟩ | ⟨⟨fs, hs⟩, before, ds, after, rfl, hb, he⟩)
    · exact ⟨before, ds, after ++ '.' :: r, by simp, hb, he⟩
    · rcases hb with ⟨hb, -⟩ | ⟨rs, hb⟩
      · exact Bool.noConfusion hb
      · exact ⟨s ++ '.' :: before, ds, after, by simp, .inr ⟨_, .cons hs hb⟩, he⟩

end Path

end JsonPaths
