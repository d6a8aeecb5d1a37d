/-
JsonPaths/Proofs/Json/ReadValue.lean

Values read back.

Between the parts of arrays and objects a layout may put spaces and line feeds, which the
reader skips (`Layout.Loose`).  A value that has a text is read back from it in every such
layout, at every depth and in front of everything that cannot prolong a number, if the fuel
is twice the length of the text (`readsBack`); the reader of whole texts starts with as much
(`read_write`).
-/
import JsonPaths.Proofs.Json.ReadNumber
import JsonPaths.Proofs.Json.ReadString
import JsonPaths.Proofs.Json.Writer
import JsonPaths.Proofs.Value.Distinct

namespace JsonPaths

namespace Json

variable {l : Layout} {s r b : List Char}

/-! ### Spacing -/

/-- Spaces and line feeds. -/
def IsSpacing (b : List Char) : Prop := ∀ c ∈ b, c = ' ' ∨ c = '\n'

theorem IsSpacing.skipBlank (h : IsSpacing b) (s : List Char) :
    skipBlank (b ++ s) = skipBlank s := by
  refine List.dropWhile_append_of_pos fun c hc => ?_
  rcases h c hc with rfl | rfl <;> rfl

/-- A layout whose separators are a comma and a colon with spacing behind them, and whose
line breaks are spacing. -/
structure Layout.Loose (l : Layout) : Prop where
  comma : ∃ b, l.comma = ',' :: b ∧ IsSpacing b
  colon : ∃ b, l.colon = ':' :: b ∧ IsSpacing b
  lineBreak : ∀ depth, IsSpacing (l.lineBreak depth)

theorem loose_compact : Layout.compact.Loose where
  comma := ⟨[], rfl, by simp [IsSpacing]⟩
  colon := ⟨[], rfl, by simp [IsSpacing]⟩
  lineBreak _ := by simp [IsSpacing, Layout.lineBreak, Layout.compact]

theorem loose_spaced : Layout.spaced.Loose where
  comma := ⟨[' '], rfl, by simp [IsSpacing]⟩
  colon := ⟨[' '], rfl, by simp [IsSpacing]⟩
  lineBreak _ := by simp [IsSpacing, Layout.lineBreak, Layout.spaced]

theorem loose_indented {margin : Nat → List Char} (h : ∀ depth, IsSpacing (margin depth)) :
    (Layout.indented margin).Loose where
  comma := ⟨[], rfl, by simp [IsSpacing]⟩
  colon := ⟨[' '], rfl, by simp [IsSpacing]⟩
  lineBreak depth := List.forall_mem_cons.2 ⟨.inr rfl, h depth⟩

/-! ### What texts begin with -/

/-- The characters that the text of a value can begin with. -/
def StartsValue (c : Char) : Prop := StartsPlain c ∨ c ∈ ['"', '[', '\x7b']

instance (c : Char) : Decidable (StartsValue c) := inferInstanceAs (Decidable (_ ∨ _))

theorem StartsValue.ne {c d : Char} (h : StartsValue c) (hd : ¬StartsValue d) : c ≠ d := by
  rintro rfl
  exact hd h

theorem StartsValue.isBlank {c : Char} (h : StartsValue c) : isBlank c = false := by
  simp only [Json.isBlank, decide_eq_false_iff_not, not_or]
  exact ⟨h.ne (by decide), h.ne (by decide), h.ne (by decide), h.ne (by decide)⟩

theorem skipBlank_cons {c : Char} (h : isBlank c = false) : skipBlank (c :: s) = c :: s :=
  List.dropWhile_cons_of_neg (by simp [h])

/-- What a value is written as begins like a value. -/
theorem startsValue_of_writeAt {depth : Nat} {v : Json} (h : writeAt l depth v = some s) :
    ∃ c t, s = c :: t ∧ StartsValue c := by
  cases v with
  | null =>
    rw [writeAt, Option.some.injEq] at h
    exact ⟨'n', ['u', 'l', 'l'], h.symm, by decide⟩
  | bool b =>
    rw [writeAt, Option.some.injEq] at h
    cases b with
    | true => exact ⟨'t', ['r', 'u', 'e'], h.symm, by decide⟩
    | false => exact ⟨'f', ['a', 'l', 's', 'e'], h.symm, by decide⟩
  | int n =>
    rw [writeAt] at h
    obtain ⟨-, rfl⟩ := Text.intText?_eq_some_iff.1 h
    obtain ⟨c, t, ht, hc⟩ := startsPlain_intChars n
    exact ⟨c, t, ht, .inl hc⟩
  | double x =>
    rw [writeAt, Option.some.injEq] at h
    obtain ⟨c, t, ht, hc⟩ := startsPlain_double x
    exact ⟨c, t, h ▸ ht, .inl hc⟩
  | string s =>
    rw [writeAt, Option.some.injEq] at h
    exact ⟨'"', _, h.symm, by decide⟩
  | array m items =>
    cases items with
    | nil =>
      rw [writeAt, Option.some.injEq] at h
      exact ⟨'[', _, h.symm, by decide⟩
    | cons v vs =>
      obtain ⟨a, -, rfl⟩ := writeAt_array_eq_some_iff.1 h
      exact ⟨'[', _, rfl, by decide⟩
  | object m ms =>
    cases ms with
    | nil =>
      rw [writeAt, Option.some.injEq] at h
      exact ⟨'\x7b', _, h.symm, by decide⟩
    | cons p ms =>
      obtain ⟨a, -, rfl⟩ := writeAt_object_eq_some_iff.1 h
      exact ⟨'\x7b', _, rfl, by decide⟩

theorem closes_cons {c : Char} (h : c.isDigit = false ∧ c ≠ '.' ∧ c ≠ 'e' ∧ c ≠ 'E') :
    Closes (c :: s) := by
  rintro d ⟨⟩
  exact h

theorem IsSpacing.closes (h : IsSpacing b) (hs : Closes s) : Closes (b ++ s) := by
  cases b with
  | nil => exact hs
  | cons c b => rcases h c List.mem_cons_self with rfl | rfl <;> exact closes_cons (by decide)

/-! ### Scalars -/

theorem readValue_plain {fuel : Nat} {c : Char} (h : StartsPlain c) :
    readValue (fuel + 1) (c :: s) = readPlain (c :: s) := by
  have hne {d : Char} (hd : ¬StartsPlain d) : c ≠ d := by
    rintro rfl
    exact hd h
  unfold readValue
  split
  · next he => exact absurd (List.cons.inj he).1 (hne (by decide))
  · next he => exact absurd (List.cons.inj he).1 (hne (by decide))
  · next he => exact absurd (List.cons.inj he).1 (hne (by decide))
  · rfl

/-- What reading a value back says, for any depth, any fuel that is enough and any text
behind. -/
def ReadsBack (l : Layout) (v : Json) : Prop :=
  ∀ depth fuel s r, writeAt l depth v = some s → 2 * s.length ≤ fuel → Closes r →
    readValue fuel (s ++ r) = .ok (v, r)

theorem readsBack_plain {v : Json} (t : List Char)
    (ht : ∀ {depth s}, writeAt l depth v = some s → t = s)
    (hstart : ∃ c t', t = c :: t' ∧ StartsPlain c)
    (hread : ∀ r, Closes r → readPlain (t ++ r) = .ok (v, r)) : ReadsBack l v := by
  intro depth fuel s r hs hfuel hr
  obtain rfl := ht hs
  obtain ⟨c, t, rfl, hc⟩ := hstart
  obtain ⟨fuel, rfl⟩ : ∃ k, fuel = k + 1 := ⟨fuel - 1, by simp at hfuel; omega⟩
  exact (readValue_plain hc).trans (hread r hr)

theorem readsBack_null : ReadsBack l .null :=
  readsBack_plain ['n', 'u', 'l', 'l'] (by simp [writeAt]) ⟨_, _, rfl, by decide⟩ fun _ _ => rfl

theorem readsBack_bool (b : Bool) : ReadsBack l (.bool b) := by
  cases b with
  | true =>
    exact readsBack_plain ['t', 'r', 'u', 'e'] (by simp [writeAt]) ⟨_, _, rfl, by decide⟩
      fun _ _ => rfl
  | false =>
    exact readsBack_plain ['f', 'a', 'l', 's', 'e'] (by simp [writeAt]) ⟨_, _, rfl, by decide⟩
      fun _ _ => rfl

/-- A whole number that is short enough to be written is short enough to be read. -/
theorem readsBack_int (n : Int) : ReadsBack l (.int n) := by
  intro depth fuel s r hs
  rw [writeAt] at hs
  obtain ⟨hn, -⟩ := Text.intText?_eq_some_iff.1 hs
  exact readsBack_plain (l := l) (Text.intChars n)
    (fun h => (Text.intText?_eq_some_iff.1 (by rwa [writeAt] at h)).2) (startsPlain_intChars n)
    (fun _ hr => readPlain_intChars hn hr) depth fuel s r (by rwa [writeAt])

theorem readsBack_double (x : Double) : ReadsBack l (.double x) :=
  readsBack_plain (x.text specialNames) (by simp [writeAt]) (startsPlain_double x)
    fun _ hr => readPlain_double x hr

theorem readsBack_string (s : String) : ReadsBack l (.string s) := by
  intro depth fuel t r ht hfuel hr
  rw [writeAt, Option.some.injEq] at ht
  subst ht
  have hlength : 0 < (stringText s).length := Nat.succ_pos _
  obtain ⟨fuel, rfl⟩ : ∃ k, fuel = k + 1 := ⟨fuel - 1, by omega⟩
  rw [stringText_append, readValue, readString_stringText]
  simp [Except.map]

/-! ### Arrays -/

/-- The items of an array begin as their first one does. -/
theorem startsValue_of_writeItems {depth : Nat} {v : Json} {vs : List Json}
    (h : writeItems l depth (v :: vs) = some s) : ∃ c t, s = c :: t ∧ StartsValue c := by
  cases vs with
  | nil =>
    rw [writeItems] at h
    exact startsValue_of_writeAt h
  | cons w vs =>
    obtain ⟨a, -, ha, -, rfl⟩ := writeItems_cons_eq_some_iff.1 h
    obtain ⟨c, t, rfl, hc⟩ := startsValue_of_writeAt ha
    exact ⟨c, _, rfl, hc⟩

/-- The items are read one after the other, by induction on them. -/
theorem readItems_of_writeItems (hl : l.Loose) {v : Json} {vs : List Json}
    (h : ∀ w ∈ v :: vs, ReadsBack l w) {depth : Nat}
    (hs : writeItems l depth (v :: vs) = some s) (fuel : Nat) (done : List Json)
    (hfuel : 2 * s.length + 1 ≤ fuel) (hb : IsSpacing b) :
    readItems fuel done (s ++ (b ++ ']' :: r)) =
      .ok (.array () (done.reverse ++ v :: vs), r) := by
  have hclose : Closes (b ++ ']' :: r) := hb.closes (closes_cons (by decide))
  obtain ⟨fuel, rfl⟩ : ∃ k, fuel = k + 1 := ⟨fuel - 1, by omega⟩
  induction vs generalizing v s done fuel with
  | nil =>
    rw [writeItems] at hs
    have hread := h v List.mem_cons_self depth fuel s _ hs (by omega) hclose
    rw [readItems, hread]
    simp only [hb.skipBlank, skipBlank_cons (c := ']') (by decide), List.reverse_cons]
  | cons w vs ih =>
    obtain ⟨a, ha, hspace⟩ := hl.comma
    obtain ⟨first, rest, hfirst, hrest, rfl⟩ := writeItems_cons_eq_some_iff.1 hs
    obtain ⟨c, t, ht, hc⟩ := startsValue_of_writeItems hrest
    rw [ha] at hfuel ⊢
    simp only [List.length_append, List.length_cons] at hfuel
    obtain ⟨fuel, rfl⟩ : ∃ k, fuel = k + 1 := ⟨fuel - 1, by omega⟩
    have hcomma : Closes (',' :: (a ++ (l.lineBreak depth ++ (rest ++ (b ++ ']' :: r))))) :=
      closes_cons (by decide)
    have hread := h v List.mem_cons_self depth (fuel + 1) first _ hfirst (by omega) hcomma
    have hskip : skipBlank (a ++ (l.lineBreak depth ++ (rest ++ (b ++ ']' :: r)))) =
        rest ++ (b ++ ']' :: r) := by
      rw [hspace.skipBlank, (hl.lineBreak depth).skipBlank, ht]
      exact skipBlank_cons hc.isBlank
    have hitems := ih (fun x hx => h x (List.mem_cons_of_mem v hx)) hrest (v :: done) fuel
      (by omega)
    simp only [List.append_assoc, List.cons_append] at hread ⊢
    rw [readItems, hread]
    simp only [skipBlank_cons (c := ',') (by decide), hskip, hitems, List.reverse_cons,
      List.append_assoc, List.singleton_append]

theorem readsBack_array (hl : l.Loose) {items : List Json} (h : ∀ v ∈ items, ReadsBack l v) :
    ReadsBack l (.array () items) := by
  intro depth fuel s r hs hfuel hr
  cases items with
  | nil =>
    rw [writeAt, Option.some.injEq] at hs
    subst hs
    obtain ⟨fuel, rfl⟩ : ∃ k, fuel = k + 1 := ⟨fuel - 1, by simp at hfuel; omega⟩
    rfl
  | cons v vs =>
    obtain ⟨inner, hinner, rfl⟩ := writeAt_array_eq_some_iff.1 hs
    obtain ⟨c, t, ht, hc⟩ := startsValue_of_writeItems hinner
    simp only [List.length_append, List.length_cons] at hfuel
    obtain ⟨fuel, rfl⟩ : ∃ k, fuel = k + 1 := ⟨fuel - 1, by omega⟩
    have hitems := readItems_of_writeItems (r := r) hl h hinner fuel [] (by omega)
      (hl.lineBreak depth)
    simp only [List.append_assoc, List.cons_append, List.nil_append, List.reverse_nil]
      at hitems ⊢
    have hskip : skipBlank (l.lineBreak (depth + 1) ++
        (inner ++ (l.lineBreak depth ++ ']' :: r))) =
        inner ++ (l.lineBreak depth ++ ']' :: r) := by
      rw [(hl.lineBreak _).skipBlank, ht]
      exact skipBlank_cons hc.isBlank
    rw [readValue, hskip]
    split
    · next he =>
      rw [ht] at he
      exact absurd (List.cons.inj he).1 (hc.ne (by decide))
    · exact hitems

/-! ### Objects -/

/-- The members of an object begin with the quote of the first key. -/
theorem head_of_writeMembers {depth : Nat} {p : String × Json} {ms : List (String × Json)}
    (h : writeMembers l depth (p :: ms) = some s) : ∃ t, s = '"' :: t := by
  obtain ⟨k, v⟩ := p
  cases ms with
  | nil =>
    obtain ⟨a, -, rfl⟩ := writeMembers_singleton_eq_some_iff.1 h
    exact ⟨_, rfl⟩
  | cons q ms =>
    obtain ⟨a, b, -, -, rfl⟩ := writeMembers_cons_eq_some_iff.1 h
    exact ⟨_, rfl⟩

/-- One member is read up to the brace or the comma behind it. -/
theorem readMembers_member (hl : l.Loose) {k : String} {v : Json} (h : ReadsBack l v)
    {depth : Nat} {value : List Char} (hv : writeAt l depth v = some value) (fuel : Nat)
    (done : List (String × Json)) (hfuel : 2 * value.length ≤ fuel) (hs : Closes s) :
    (skipBlank s = '\x7d' :: r →
        readMembers (fuel + 1) done (stringText k ++ (l.colon ++ (value ++ s))) =
          .ok (.object () (Assoc.ofList ((k, v) :: done).reverse), r)) ∧
      (skipBlank s = ',' :: r →
        readMembers (fuel + 1) done (stringText k ++ (l.colon ++ (value ++ s))) =
          readMembers fuel ((k, v) :: done) (skipBlank r)) := by
  obtain ⟨a, ha, hspace⟩ := hl.colon
  obtain ⟨c, t, ht, hc⟩ := startsValue_of_writeAt hv
  have hread := h depth fuel value s hv hfuel hs
  have hskip : skipBlank (a ++ (value ++ s)) = value ++ s := by
    rw [hspace.skipBlank, ht]
    exact skipBlank_cons hc.isBlank
  rw [stringText_append, ha, readMembers, readString_stringText]
  constructor
  · intro hend
    simp only [List.cons_append, skipBlank_cons (c := ':') (by decide), hskip, hread, hend,
      String.ofList_toList]
  · intro hend
    simp only [List.cons_append, skipBlank_cons (c := ':') (by decide), hskip, hread, hend,
      String.ofList_toList]

/-- The members are read one after the other, by induction on them. -/
theorem readMembers_of_writeMembers (hl : l.Loose) {p : String × Json}
    {ms : List (String × Json)} (h : ∀ q ∈ p :: ms, ReadsBack l q.2) {depth : Nat}
    (hs : writeMembers l depth (p :: ms) = some s) (fuel : Nat)
    (done : List (String × Json)) (hfuel : 2 * s.length + 1 ≤ fuel) (hb : IsSpacing b) :
    readMembers fuel done (s ++ (b ++ '\x7d' :: r)) =
      .ok (.object () (Assoc.ofList (done.reverse ++ p :: ms)), r) := by
  have hclose : Closes (b ++ '\x7d' :: r) := hb.closes (closes_cons (by decide))
  obtain ⟨fuel, rfl⟩ : ∃ k, fuel = k + 1 := ⟨fuel - 1, by omega⟩
  induction ms generalizing p s done fuel with
  | nil =>
    obtain ⟨k, v⟩ := p
    have hv : ReadsBack l v := h (k, v) List.mem_cons_self
    obtain ⟨value, hvalue, rfl⟩ := writeMembers_singleton_eq_some_iff.1 hs
    simp only [List.length_append] at hfuel
    simp only [List.append_assoc]
    have hend : skipBlank (b ++ '\x7d' :: r) = '\x7d' :: r := by
      rw [hb.skipBlank]
      exact skipBlank_cons (by decide)
    rw [(readMembers_member hl hv hvalue fuel done (by omega) hclose).1 hend,
      List.reverse_cons]
  | cons q ms ih =>
    obtain ⟨k, v⟩ := p
    have hv : ReadsBack l v := h (k, v) List.mem_cons_self
    obtain ⟨a, ha, hspace⟩ := hl.comma
    obtain ⟨value, rest, hvalue, hrest, rfl⟩ := writeMembers_cons_eq_some_iff.1 hs
    obtain ⟨t, ht⟩ := head_of_writeMembers hrest
    rw [ha] at hfuel ⊢
    simp only [List.length_append, List.length_cons] at hfuel
    obtain ⟨fuel, rfl⟩ : ∃ k, fuel = k + 1 := ⟨fuel - 1, by omega⟩
    have hcomma : Closes (',' :: (a ++ (l.lineBreak depth ++ (rest ++ (b ++ '\x7d' :: r))))) :=
      closes_cons (by decide)
    have hskip : skipBlank (a ++ (l.lineBreak depth ++ (rest ++ (b ++ '\x7d' :: r)))) =
        rest ++ (b ++ '\x7d' :: r) := by
      rw [hspace.skipBlank, (hl.lineBreak depth).skipBlank, ht]
      exact skipBlank_cons (by decide)
    have hmembers := ih (fun x hx => h x (List.mem_cons_of_mem (k, v) hx)) hrest ((k, v) :: done)
      fuel (by omega)
    simp only [List.append_assoc, List.cons_append]
    rw [(readMembers_member hl hv hvalue _ done (by omega) hcomma).2
      (skipBlank_cons (by decide)), hskip, hmembers, List.reverse_cons, List.append_assoc,
      List.singleton_append]

theorem readsBack_object (hl : l.Loose) {ms : List (String × Json)}
    (hn : (Assoc.keys ms).Nodup) (h : ∀ p ∈ ms, ReadsBack l p.2) :
    ReadsBack l (.object () ms) := by
  intro depth fuel s r hs hfuel hr
  cases ms with
  | nil =>
    rw [writeAt, Option.some.injEq] at hs
    subst hs
    obtain ⟨fuel, rfl⟩ : ∃ k, fuel = k + 1 := ⟨fuel - 1, by simp at hfuel; omega⟩
    rfl
  | cons p ms =>
    obtain ⟨inner, hinner, rfl⟩ := writeAt_object_eq_some_iff.1 hs
    obtain ⟨t, ht⟩ := head_of_writeMembers hinner
    simp only [List.length_append, List.length_cons] at hfuel
    obtain ⟨fuel, rfl⟩ : ∃ k, fuel = k + 1 := ⟨fuel - 1, by omega⟩
    have hmembers := readMembers_of_writeMembers (r := r) hl h hinner fuel [] (by omega)
      (hl.lineBreak depth)
    simp only [List.append_assoc, List.cons_append, List.nil_append, List.reverse_nil]
      at hmembers ⊢
    have hskip : skipBlank (l.lineBreak (depth + 1) ++
        (inner ++ (l.lineBreak depth ++ '\x7d' :: r))) =
        inner ++ (l.lineBreak depth ++ '\x7d' :: r) := by
      rw [(hl.lineBreak _).skipBlank, ht]
      exact skipBlank_cons (by decide)
    rw [readValue, hskip]
    split
    · next he =>
      rw [ht] at he
      exact absurd (List.cons.inj he).1 (by decide)
    · rw [hmembers, Assoc.ofList_eq_self hn]

/-! ### Whole texts -/

/-- **Every value is read back from its text**, by induction on the value. -/
theorem readsBack (hl : l.Loose) {v : Json} (hd : v.Distinct) : ReadsBack l v := by
  induction v using Value.ind with
  | null => exact readsBack_null
  | bool b => exact readsBack_bool b
  | int n => exact readsBack_int n
  | double x => exact readsBack_double x
  | string s => exact readsBack_string s
  | array m items ih =>
    exact readsBack_array hl fun v hv => ih v hv (Value.distinct_array_iff.1 hd v hv)
  | object m ms ih =>
    obtain ⟨hkeys, hmembers⟩ := Value.distinct_object_iff.1 hd
    exact readsBack_object hl hkeys fun p hp => ih p hp (hmembers p hp)

theorem readAll_of_writeAt (hl : l.Loose) {v : Json} (hd : v.Distinct)
    (hs : writeAt l 0 v = some s) (hb : IsSpacing b) : readAll (s ++ b) = .ok v := by
  obtain ⟨c, t, ht, hc⟩ := startsValue_of_writeAt hs
  have hread := readsBack hl hd 0 (2 * (s ++ b).length + 2) s b hs
    (by rw [List.length_append]; omega) (List.append_nil b ▸ hb.closes (by simp [Closes]))
  have hskip : skipBlank (s ++ b) = s ++ b := by
    rw [ht]
    exact skipBlank_cons hc.isBlank
  have hend : skipBlank b = [] := by
    rw [← List.append_nil b, hb.skipBlank]
    rfl
  unfold readAll
  split
  · next he =>
    rw [ht] at he
    exact absurd (List.cons.inj he).1 (hc.ne (by decide))
  · rw [hskip, hread]
    simp only [hend]

/-- **Reading undoes writing**, in every loose layout, with spaces and line feeds at the
end of the text or none. -/
theorem read_write (hl : l.Loose) {v : Json} (hd : v.Distinct) {t : String}
    (ht : write l v = some t) (hb : IsSpacing b) :
    read (t ++ String.ofList b) = .ok v := by
  rw [read, String.toList_append, String.toList_ofList,
    readAll_of_writeAt hl hd (write_eq_some_iff.1 ht) hb]
  rfl

end Json

end JsonPaths
