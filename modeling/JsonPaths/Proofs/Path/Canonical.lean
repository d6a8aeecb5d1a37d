/-
JsonPaths/Proofs/Path/Canonical.lean

The text of a path.

If the names of the steps are names of the path grammar, then the text determines the
steps (`render_inj`), and it is read back to them exactly if no place has more digits
than can be read (`parse_render_iff`).  The text has no marker in it, and it derives from
the grammar: a name starts a new segment and an index makes the last one longer, which
is the induction of `segments_chars`.
-/
import Mathlib.Algebra.GroupWithZero.Nat
import JsonPaths.Proofs.Path.Accepted

namespace JsonPaths

/-- A step whose name, if it has one, is a name of the path grammar. -/
def Step.Named : Step → Prop
  | .field name => Path.IsName name.toList
  | .index _ => True

/-- A step whose place, if it has one, has not too many digits. -/
def Step.Writable : Step → Prop
  | .field _ => True
  | .index i => (Nat.toDigits 10 i).length ≤ Text.digitLimit

namespace Path

/-! ### The text of a path -/

/-- The text of a path starts with a dot. -/
theorem exists_chars (p : List Step) : ∃ r, chars p = '.' :: r := by
  unfold chars dotted
  split
  · exact ⟨_, rfl⟩
  · exact ⟨_, rfl⟩

theorem render_ne_empty (p : List Step) : render p ≠ "" := by
  intro h
  obtain ⟨r, hr⟩ := exists_chars p
  have hnil : chars p = [] := by simpa [render] using congrArg String.toList h
  rw [hr] at hnil
  exact List.cons_ne_nil _ _ hnil

theorem dotted_append {s : List Char} (h : s ≠ []) (t : List Char) :
    dotted (s ++ t) = dotted s ++ t := by
  cases s with
  | nil => exact absurd rfl h
  | cons c r =>
    by_cases hc : c = '.'
    · rw [hc]
      rfl
    · simp [dotted, hc]

theorem flatMap_chars_ne_nil {p : List Step} (h : p ≠ []) : p.flatMap Step.chars ≠ [] := by
  cases p with
  | nil => exact absurd rfl h
  | cons s p => cases s <;> simp [Step.chars]

/-- The text of steps that come after others. -/
def suffix (steps : List Step) : String := String.ofList (steps.flatMap Step.chars)

theorem render_append {p : List Step} (h : p ≠ []) (q : List Step) :
    render (p ++ q) = render p ++ suffix q := by
  rw [render, chars, List.flatMap_append, dotted_append (flatMap_chars_ne_nil h),
    String.ofList_append]
  rfl

theorem render_concat {p : List Step} (h : p ≠ []) (s : Step) :
    render (p ++ [s]) = render p ++ s.render := by
  have hs : suffix [s] = s.render := by
    rw [suffix, List.flatMap_singleton]
    rfl
  rw [render_append h, hs]

/-! ### The text determines the steps -/

theorem index_chars_append (i : Nat) (r : List Char) :
    (Step.index i).chars ++ r = '[' :: (Nat.toDigits 10 i ++ ']' :: r) := by
  simp [Step.chars]

theorem chars_field (name : String) (p : List Step) :
    chars (.field name :: p) = (Step.field name :: p).flatMap Step.chars := rfl

theorem chars_of_ne_field {p : List Step} (h : ∀ a r, p ≠ .field a :: r) :
    chars p = '.' :: p.flatMap Step.chars := by
  cases p with
  | nil => rfl
  | cons s p =>
    cases s with
    | field name => exact absurd rfl (h name p)
    | index i => rfl

theorem isDigits_toDigits (i : Nat) : IsDigits (Nat.toDigits 10 i) where
  ne_nil := Nat.toDigits_ne_nil
  digit _ hc := Nat.isDigit_of_mem_toDigits (by decide) (by decide) hc

theorem index_inj {i j : Nat} {r q : List Char}
    (h : Nat.toDigits 10 i ++ ']' :: r = Nat.toDigits 10 j ++ ']' :: q) : i = j ∧ r = q := by
  obtain ⟨hd, hr⟩ := Text.separated_inj ((isDigits_toDigits i).notMem rfl)
    ((isDigits_toDigits j).notMem rfl) h
  have hij := congrArg (fun ds => Nat.ofDigitChars 10 ds 0) hd
  simp only [Nat.ofDigitChars_ten_toDigits] at hij
  exact ⟨hij, hr⟩

/-- Whether a character can stand in a name before the next step. -/
def inName (c : Char) : Bool := c != '.' && c != '['

theorem inName_of_isName {name : List Char} (h : IsName name) :
    ∀ c ∈ name, inName c = true := by
  intro c hc
  obtain ⟨hdot, hopen, -⟩ := h.plain c hc
  simp [inName, hdot, hopen]

theorem not_inName_head (p : List Step) :
    ∀ c ∈ (p.flatMap Step.chars).head?, inName c = false := by
  cases p with
  | nil => exact nofun
  | cons s p =>
    cases s with
    | field name => rintro c ⟨⟩; rfl
    | index i => rintro c ⟨⟩; rfl

theorem name_inj {a b : String} {p q : List Step} (ha : (Step.field a).Named)
    (hb : (Step.field b).Named)
    (h : a.toList ++ p.flatMap Step.chars = b.toList ++ q.flatMap Step.chars) :
    a = b ∧ p.flatMap Step.chars = q.flatMap Step.chars := by
  obtain ⟨hab, hpq⟩ := Text.cut_inj (inName_of_isName ha) (inName_of_isName hb)
    (not_inName_head p) (not_inName_head q) h
  exact ⟨String.toList_injective hab, hpq⟩

theorem flatMap_chars_inj {p q : List Step} (hp : ∀ s ∈ p, s.Named) (hq : ∀ s ∈ q, s.Named)
    (h : p.flatMap Step.chars = q.flatMap Step.chars) : p = q := by
  induction p generalizing q with
  | nil =>
    by_contra hne
    exact flatMap_chars_ne_nil (Ne.symm hne) h.symm
  | cons s p ih =>
    cases q with
    | nil => exact absurd h (flatMap_chars_ne_nil (List.cons_ne_nil s p))
    | cons t q =>
      obtain ⟨hs, hps⟩ := List.forall_mem_cons.1 hp
      obtain ⟨ht, hqs⟩ := List.forall_mem_cons.1 hq
      rw [List.flatMap_cons, List.flatMap_cons] at h
      -- the first character tells a field from an index
      cases s with
      | field a =>
        cases t with
        | field b =>
          obtain ⟨rfl, hpq⟩ := name_inj hs ht (List.cons.inj h).2
          rw [ih hps hqs hpq]
        | index j => exact absurd (List.cons.inj h).1 (by decide)
      | index i =>
        cases t with
        | field b => exact absurd (List.cons.inj h).1 (by decide)
        | index j =>
          rw [index_chars_append, index_chars_append] at h
          obtain ⟨rfl, hpq⟩ := index_inj (List.cons.inj h).2
          rw [ih hps hqs hpq]

/-- A dot in front of an index, or of nothing, is not that of a name. -/
theorem chars_field_ne {name : String} (hn : (Step.field name).Named) {p q : List Step}
    (hq : ∀ a r, q ≠ .field a :: r) : chars (.field name :: p) ≠ chars q := by
  intro h
  rw [chars_field, chars_of_ne_field hq] at h
  have ht : name.toList ++ p.flatMap Step.chars = q.flatMap Step.chars := (List.cons.inj h).2
  obtain ⟨c, cs, hc⟩ := List.exists_cons_of_ne_nil hn.ne_nil
  rw [hc] at ht
  cases q with
  | nil => exact List.cons_ne_nil _ _ ht
  | cons s q =>
    cases s with
    | field a => exact hq a q rfl
    | index i =>
      have hopen : c = '[' := (List.cons.inj ht).1
      exact IsName.notMem hn (by rw [hc, hopen]; exact List.mem_cons_self)

theorem chars_inj {p q : List Step} (hp : ∀ s ∈ p, s.Named) (hq : ∀ s ∈ q, s.Named)
    (h : chars p = chars q) : p = q := by
  -- the dot in front is there for a name or is put there, in both texts alike
  by_cases hfp : ∃ a r, p = .field a :: r
  · obtain ⟨a, r, rfl⟩ := hfp
    by_cases hfq : ∃ b t, q = .field b :: t
    · obtain ⟨b, t, rfl⟩ := hfq
      exact flatMap_chars_inj hp hq h
    · exact absurd h (chars_field_ne (hp _ List.mem_cons_self) (by simpa using hfq))
  · by_cases hfq : ∃ b t, q = .field b :: t
    · obtain ⟨b, t, rfl⟩ := hfq
      exact absurd h.symm (chars_field_ne (hq _ List.mem_cons_self) (by simpa using hfp))
    · rw [chars_of_ne_field (by simpa using hfp), chars_of_ne_field (by simpa using hfq)] at h
      exact flatMap_chars_inj hp hq (List.cons.inj h).2

theorem render_inj {p q : List Step} (hp : ∀ s ∈ p, s.Named) (hq : ∀ s ∈ q, s.Named)
    (h : render p = render q) : p = q :=
  chars_inj hp hq (by simpa [render] using congrArg String.toList h)

/-! ### Steps in the grammar -/

theorem indexes_index {i : Nat} (hi : (Step.index i).Writable) :
    Indexes (Step.index i).chars [.index i] := by
  have hc := Indexes.cons (isDigits_toDigits i) hi .nil
  rwa [Nat.ofDigitChars_ten_toDigits, ← index_chars_append, List.append_nil] at hc

theorem segment_field {bare : Bool} {name : String} (h : (Step.field name).Named) :
    Segment bare name.toList [.field name] := by
  have hs : Segment bare (name.toList ++ []) _ := .named h .nil
  rwa [List.append_nil, String.ofList_toList] at hs

/-- Steps after a segment: each index makes the segment longer, each field starts
another one. -/
theorem segments_chars {bare : Bool} {s : List Char} {fs steps : List Step}
    (hs : Segment bare s fs) (hn : ∀ t ∈ steps, t.Named) (hw : ∀ t ∈ steps, t.Writable) :
    Segments bare (s ++ steps.flatMap Step.chars) (fs ++ steps) := by
  induction steps generalizing bare s fs with
  | nil =>
    rw [List.flatMap_nil, List.append_nil, List.append_nil]
    exact .last hs
  | cons t steps ih =>
    obtain ⟨ht, hns⟩ := List.forall_mem_cons.1 hn
    obtain ⟨ht', hws⟩ := List.forall_mem_cons.1 hw
    rw [List.flatMap_cons]
    cases t with
    | field name => exact .cons hs (ih (segment_field ht) hns hws)
    | index i =>
      have hi := ih (hs.append_indexes (indexes_index ht')) hns hws
      rwa [List.append_assoc, List.append_assoc] at hi

/-! ### No markers -/

theorem Unmarked.append {s t b : List Char} (hs : '[' ∉ s) (h : Unmarked t b) :
    Unmarked (s ++ t) (s ++ b) := by
  induction s with
  | nil => exact h
  | cons c s ih =>
    obtain ⟨hc, hs⟩ := not_or.1 (fun h' => hs (List.mem_cons.2 h'))
    refine .other (fun r hr => ?_) (ih hs)
    exact hc (List.cons.inj hr).1.symm

/-- There is a digit in the brackets of an index. -/
theorem Unmarked.bracket {ds t b : List Char} (hd : IsDigits ds) (h : Unmarked t b) :
    Unmarked ('[' :: (ds ++ ']' :: t)) ('[' :: (ds ++ ']' :: b)) := by
  have hclose : Unmarked (']' :: t) (']' :: b) :=
    .other (fun r hr => absurd (List.cons.inj hr).1 (by decide)) h
  refine .other (fun r hr => ?_) (.append (hd.notMem rfl) hclose)
  obtain ⟨d, ds, e⟩ := List.exists_cons_of_ne_nil hd.ne_nil
  rw [e] at hr hd
  have hc : d = ']' := (List.cons.inj (List.cons.inj hr).2).1
  exact absurd (hd.digit d List.mem_cons_self) (by rw [hc]; decide)

theorem unmarked_index (i : Nat) {t b : List Char} (h : Unmarked t b) :
    Unmarked ((Step.index i).chars ++ t) ((Step.index i).chars ++ b) := by
  rw [index_chars_append, index_chars_append]
  exact .bracket (isDigits_toDigits i) h

theorem unmarked_chars {steps : List Step} (h : ∀ s ∈ steps, s.Named) :
    Unmarked (steps.flatMap Step.chars) (steps.flatMap Step.chars) := by
  induction steps with
  | nil => exact .nil
  | cons s steps ih =>
    obtain ⟨hs, hss⟩ := List.forall_mem_cons.1 h
    rw [List.flatMap_cons]
    cases s with
    | field name =>
      have hn : '[' ∉ '.' :: name.toList :=
        List.not_mem_cons_of_ne_of_not_mem (by decide) (IsName.notMem hs)
      exact .append hn (ih hss)
    | index i => exact unmarked_index i (ih hss)

/-! ### Reading the text of a path -/

theorem denotes_render {steps : List Step} (hn : ∀ s ∈ steps, s.Named)
    (hw : ∀ s ∈ steps, s.Writable) : Denotes (render steps) steps := by
  cases steps with
  | nil => exact ⟨[], [], rfl, .nil, .inl ⟨rfl, rfl⟩⟩
  | cons s steps =>
    obtain ⟨hs, hns⟩ := List.forall_mem_cons.1 hn
    obtain ⟨hs', hws⟩ := List.forall_mem_cons.1 hw
    cases s with
    | field name =>
      have hu := Unmarked.append (IsName.notMem hs) (unmarked_chars hns)
      refine ⟨_, _, ?_, hu, .inr (segments_chars (segment_field hs) hns hws)⟩
      simp [render, chars, Step.chars, dotted]
    | index i =>
      have hi : Segment true (Step.index i).chars [.index i] :=
        .bare (List.cons_ne_nil _ _) (indexes_index hs')
      refine ⟨_, _, ?_, unmarked_chars hn, .inr (segments_chars hi hns hws)⟩
      simp [render, chars, Step.chars, dotted]

theorem ofDigitChars_lt {ds : List Char} (h : ∀ c ∈ ds, c.isDigit = true) (n : Nat) :
    Nat.ofDigitChars 10 ds n < (n + 1) * 10 ^ ds.length := by
  induction ds generalizing n with
  | nil => simp
  | cons c ds ih =>
    obtain ⟨hc, hds⟩ := List.forall_mem_cons.1 h
    have hdigit : c.toNat ≤ '0'.toNat + 9 := (Char.isDigit_iff_toNat.1 hc).2
    have hstep : 10 * n + (c.toNat - '0'.toNat) + 1 ≤ (n + 1) * 10 := by omega
    rw [Nat.ofDigitChars_cons]
    calc Nat.ofDigitChars 10 ds (10 * n + (c.toNat - '0'.toNat))
        < (10 * n + (c.toNat - '0'.toNat) + 1) * 10 ^ ds.length := ih hds _
      _ ≤ (n + 1) * 10 * 10 ^ ds.length := Nat.mul_le_mul_right _ hstep
      _ = (n + 1) * 10 ^ (c :: ds).length := by
        rw [List.length_cons, Nat.pow_succ', Nat.mul_assoc]

/-- The places with too many digits are those from `10 ^ 4300` on. -/
theorem writable_index_iff {i : Nat} :
    (Step.index i).Writable ↔ i < 10 ^ Text.digitLimit :=
  Nat.length_toDigits_le_iff (by decide) (by decide)

/-- No step that is read has too many digits, since zeros in front only add some. -/
theorem Denotes.writable {path : String} {steps : List Step} (h : Denotes path steps) :
    ∀ s ∈ steps, s.Writable := by
  refine h.forall_mem (fun name _ => trivial) fun ds hd hl => writable_index_iff.2 ?_
  have hlt := ofDigitChars_lt hd.digit 0
  rw [Nat.zero_add, Nat.one_mul] at hlt
  exact Nat.lt_of_lt_of_le hlt (Nat.pow_le_pow_right (by decide) hl)

/-- The text of steps is read back to them, exactly if no place has too many digits. -/
theorem parse_render_iff {steps : List Step} (hn : ∀ s ∈ steps, s.Named) :
    parse (render steps) = .ok steps ↔ ∀ s ∈ steps, s.Writable := by
  rw [parse_eq_ok]
  exact ⟨Denotes.writable, denotes_render hn⟩

/-! ### A text with too many digits -/

theorem unmarked_render {steps : List Step} (hn : ∀ s ∈ steps, s.Named) :
    ∃ s, (render steps).toList = '.' :: s ∧ Unmarked s s := by
  by_cases hf : ∃ name ss, steps = .field name :: ss
  · obtain ⟨name, ss, rfl⟩ := hf
    obtain ⟨hname, hss⟩ := List.forall_mem_cons.1 hn
    refine ⟨_, ?_, Unmarked.append (IsName.notMem hname) (unmarked_chars hss)⟩
    simp [render, chars_field, Step.chars]
  · refine ⟨_, ?_, unmarked_chars hn⟩
    rw [render, String.toList_ofList, chars_of_ne_field (by simpa using hf)]

theorem chars_append_index (p : List Step) (i : Nat) (q : List Step) :
    chars (p ++ .index i :: q) = chars p ++ (Step.index i :: q).flatMap Step.chars := by
  by_cases hp : p = []
  · have hq : ∀ a r, Step.index i :: q ≠ .field a :: r := nofun
    rw [hp, List.nil_append, chars_of_ne_field hq]
    rfl
  · rw [chars, List.flatMap_append, dotted_append (flatMap_chars_ne_nil hp), chars]

/-- The steps before the first place that cannot be written. -/
theorem exists_unwritable {steps : List Step} (h : ¬∀ s ∈ steps, s.Writable) :
    ∃ p i q, steps = p ++ .index i :: q ∧ (∀ s ∈ p, s.Writable) ∧
      ¬(Step.index i).Writable := by
  induction steps with
  | nil => exact absurd (List.forall_mem_nil _) h
  | cons s steps ih =>
    by_cases hs : s.Writable
    · obtain ⟨p, i, q, rfl, hp, hi⟩ := ih fun hall => h (List.forall_mem_cons.2 ⟨hs, hall⟩)
      exact ⟨s :: p, i, q, rfl, List.forall_mem_cons.2 ⟨hs, hp⟩, hi⟩
    · cases s with
      | field name => exact absurd trivial hs
      | index i => exact ⟨[], i, steps, rfl, List.forall_mem_nil _, hs⟩

/-- The text of steps stops the reader at the first place with too many digits. -/
theorem overlong_render {steps : List Step} (hn : ∀ s ∈ steps, s.Named)
    (hw : ¬∀ s ∈ steps, s.Writable) : ∃ n, Overlong (render steps) n := by
  obtain ⟨p, i, q, rfl, hp, hi⟩ := exists_unwritable hw
  have hnp : ∀ s ∈ p, s.Named := fun s hs => hn s (List.mem_append_left _ hs)
  -- the steps before it are a path, which ends where the place begins
  obtain ⟨s, b, hs, hb, hpath⟩ := denotes_render hnp hp
  obtain ⟨s', hs', hb'⟩ := unmarked_render hnp
  obtain rfl : s = s' := (List.cons.inj (hs.symm.trans hs')).2
  obtain rfl : s = b := (unmarked_iff.1 hb').symm.trans (unmarked_iff.1 hb)
  have hstem : Stem true s := hpath.imp (fun h => ⟨rfl, h.1⟩) fun h => ⟨p, h⟩
  obtain ⟨t, ht, hu⟩ := unmarked_render hn
  have htext : t = s ++ '[' :: (Nat.toDigits 10 i ++ ']' :: q.flatMap Step.chars) := by
    have hchars : chars p = '.' :: s := by simpa [render] using hs
    have hall : chars (p ++ .index i :: q) = '.' :: t := by simpa [render] using ht
    rw [chars_append_index, hchars, List.flatMap_cons, index_chars_append] at hall
    exact (List.cons.inj hall).2.symm
  have hlong : Exceeds (Nat.toDigits 10 i) (Nat.toDigits 10 i).length :=
    ⟨isDigits_toDigits i, Nat.lt_of_not_le hi, rfl⟩
  exact ⟨_, t, t, ht, hu, s, _, _, htext, hstem, hlong⟩

/-- Only texts of places that can be written are read. -/
theorem writable_of_parse_render {steps ss : List Step} (hn : ∀ s ∈ steps, s.Named)
    (h : parse (render steps) = .ok ss) : ∀ s ∈ steps, s.Writable := by
  by_contra hw
  obtain ⟨n, hlong⟩ := overlong_render hn hw
  have hstop := ((reads_parse (render steps)).long_iff n).2 hlong
  rw [h] at hstop
  cases hstop

end Path

end JsonPaths
