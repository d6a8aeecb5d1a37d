/-
JsonPaths/Proofs/Path/Joined.lean

Path texts written one after the other.

The text of a second path goes on with the steps of a first one.  If the second starts with
a name, its leading dot separates it from the first, which must have a step.  If it starts
with an index, the dot is left out, and the index makes the last segment of the first
longer, or is the first segment itself.  The rule by which a first segment may lack a name
is met in both cases (`Segments.of_field`, `Segments.of_index`), and no marker comes about
at the joint.  The main result is `steps_of_joined`.
-/
import JsonPaths.Proofs.Path.Markers

namespace JsonPaths

namespace Path

/-! ### The first step of a derivation -/

theorem Segment.exists_cons {bare : Bool} {s : List Char} {ss : List Step}
    (h : Segment bare s ss) : ∃ f fs, ss = f :: fs := by
  cases h with
  | named => exact ⟨_, _, rfl⟩
  | bare hne hr =>
    cases hr with
    | nil => exact absurd rfl hne
    | cons => exact ⟨_, _, rfl⟩

/-- A segment whose first step is a field has a name. -/
theorem Segment.of_field {bare bare' : Bool} {s : List Char} {name : String} {ss : List Step}
    (h : Segment bare s (.field name :: ss)) : Segment bare' s (.field name :: ss) := by
  cases h with
  | named hn hr => exact .named hn hr
  | bare _ hr => cases hr

/-- A segment whose first step is an index has no name. -/
theorem Segment.of_index {bare : Bool} {s : List Char} {i : Nat} {ss : List Step}
    (h : Segment bare s (.index i :: ss)) : Indexes s (.index i :: ss) := by
  cases h with
  | bare _ hr => exact hr

/-- Segments whose first step is a field need not be the first of a path. -/
theorem Segments.of_field {bare bare' : Bool} {s : List Char} {name : String} {ss : List Step}
    (h : Segments bare s (.field name :: ss)) : Segments bare' s (.field name :: ss) := by
  generalize hss : Step.field name :: ss = steps at h
  cases h with
  | last hs =>
    rw [← hss] at hs ⊢
    exact .last hs.of_field
  | cons hs hr =>
    obtain ⟨f, fs, rfl⟩ := hs.exists_cons
    obtain ⟨rfl, -⟩ := List.cons.inj hss
    exact .cons hs.of_field hr

/-- Segments whose first step is an index start with indexes, after which there may be
segments with a name each. -/
theorem Segments.of_index {bare : Bool} {s : List Char} {i : Nat} {ss : List Step}
    (h : Segments bare s (.index i :: ss)) :
    ∃ r is, Indexes r (.index i :: is) ∧ (s = r ∧ ss = is ∨
      ∃ q qs, Segments false q qs ∧ s = r ++ '.' :: q ∧ ss = is ++ qs) := by
  generalize hss : Step.index i :: ss = steps at h
  cases h with
  | last hs =>
    rw [← hss] at hs
    exact ⟨s, ss, hs.of_index, .inl ⟨rfl, rfl⟩⟩
  | cons hs hq =>
    obtain ⟨f, is, rfl⟩ := hs.exists_cons
    obtain ⟨rfl, hrest⟩ := List.cons.inj hss
    exact ⟨_, is, hs.of_index, .inr ⟨_, _, hq, rfl, hrest⟩⟩

theorem Segments.head_of_index {bare : Bool} {s : List Char} {i : Nat} {ss : List Step}
    (h : Segments bare s (.index i :: ss)) : s.head? = some '[' := by
  obtain ⟨r, is, hr, ⟨rfl, rfl⟩ | ⟨q, qs, -, rfl, rfl⟩⟩ := h.of_index
  · cases hr
    rfl
  · cases hr
    rfl

/-- Segments whose first step is an index make the last segment before them longer. -/
theorem Segments.append_index {bare bare' : Bool} {s r : List Char} {ss rs : List Step}
    {i : Nat} (hs : Segments bare s ss) (hr : Segments bare' r (.index i :: rs)) :
    Segments bare (s ++ r) (ss ++ .index i :: rs) := by
  obtain ⟨t, is, ht, ⟨rfl, rfl⟩ | ⟨q, qs, hq, rfl, rfl⟩⟩ := hr.of_index
  · exact hs.append_indexes ht
  · rw [← List.append_assoc, ← List.cons_append, ← List.append_assoc]
    exact (hs.append_indexes ht).append hq

/-! ### Texts -/

section Texts

variable {p q : String} {ss ts : List Step}

/-- A path with a step derives from segments. -/
theorem Denotes.segments {s : List Char} (h : Denotes p ss) (hp : p.toList = '.' :: s)
    (hne : ss ≠ []) : Segments true (dropMarkers s) ss :=
  ((denotes_iff hp).1 h).resolve_left fun hroot => hne hroot.2

theorem Denotes.exists_text (h : Denotes p ss) : ∃ s, p.toList = '.' :: s := by
  obtain ⟨s, -, hs, -⟩ := h
  exact ⟨s, hs⟩

/-- A path that starts with a name goes on after its leading dot. -/
theorem Denotes.append_field {name : String} (hp : Denotes p ss) (hne : ss ≠ [])
    (hq : Denotes q (.field name :: ts)) : Denotes (p ++ q) (ss ++ .field name :: ts) := by
  obtain ⟨s, hs⟩ := hp.exists_text
  obtain ⟨t, ht⟩ := hq.exists_text
  have hjoined : (p ++ q).toList = '.' :: (s ++ '.' :: t) := by simp [hs, ht]
  have hsegments := (hp.segments hs hne).append (hq.segments ht (List.cons_ne_nil _ _)).of_field
  rw [denotes_iff hjoined, dropMarkers_append (not_straddled_cons (by decide)),
    dropMarkers_cons (by decide)]
  exact .inr hsegments

/-- A path that starts with an index goes on without its leading dot. -/
theorem Denotes.append_index {i : Nat} (hp : Denotes p ss)
    (hq : Denotes q (.index i :: ts)) :
    Denotes (p ++ String.ofList q.toList.tail) (ss ++ .index i :: ts) := by
  obtain ⟨s, hs⟩ := hp.exists_text
  obtain ⟨t, ht⟩ := hq.exists_text
  have hjoined : (p ++ String.ofList q.toList.tail).toList = '.' :: (s ++ t) := by
    simp [hs, ht]
  have hsegments := hq.segments ht (List.cons_ne_nil _ _)
  -- what the second path starts with, markers left out, is no bracket that closes one
  have hcut : ¬Straddled s t := by
    rintro ⟨-, hclose⟩
    obtain ⟨r, rfl⟩ := List.head?_eq_some_iff.1 hclose
    have hopen := hsegments.head_of_index
    rw [dropMarkers_cons (by decide)] at hopen
    exact absurd (Option.some.inj hopen) (by decide)
  rw [denotes_iff hjoined, dropMarkers_append hcut]
  rcases (denotes_iff hs).1 hp with ⟨hroot, rfl⟩ | hfirst
  · rw [hroot]
    exact .inr hsegments
  · exact .inr (hfirst.append_index hsegments)

end Texts

/-- **Joining path texts joins their steps.**  A path that starts with a name can be written
after any path with a step.  A path that starts with an index can be written after any path,
without its leading dot. -/
theorem steps_of_joined {p q : String} {ss ts : List Step} (hp : parse p = .ok ss)
    (hq : parse q = .ok ts) :
    (∀ name, ts.head? = some (.field name) → ss ≠ [] → parse (p ++ q) = .ok (ss ++ ts)) ∧
      ∀ i, ts.head? = some (.index i) →
        parse (p ++ String.ofList q.toList.tail) = .ok (ss ++ ts) := by
  rw [parse_eq_ok] at hp hq
  simp only [parse_eq_ok]
  refine ⟨fun name hname hne => ?_, fun i hi => ?_⟩
  · obtain ⟨ts, rfl⟩ := List.head?_eq_some_iff.1 hname
    exact hp.append_field hne hq
  · obtain ⟨ts, rfl⟩ := List.head?_eq_some_iff.1 hi
    exact hp.append_index hq

/-- A path with a marker at its end, with a name after it, and with an index after it. -/
theorem steps_of_joined_marked :
    parse ".a[]" = .ok [.field "a"] ∧ parse ".[]b[0]" = .ok [.field "b", .index 0] ∧
      parse ".[][1].c" = .ok [.index 1, .field "c"] ∧
      parse ".a[].[]b[0]" = .ok [.field "a", .field "b", .index 0] ∧
      parse ".a[][][1].c" = .ok [.field "a", .index 1, .field "c"] := by
  have ha : parse ".a[]" = .ok [.field "a"] := by decide +kernel
  have hb : parse ".[]b[0]" = .ok [.field "b", .index 0] := by decide +kernel
  have hc : parse ".[][1].c" = .ok [.index 1, .field "c"] := by decide +kernel
  exact ⟨ha, hb, hc, (steps_of_joined ha hb).1 "b" rfl (List.cons_ne_nil _ _),
    (steps_of_joined ha hc).2 1 rfl⟩

end Path

end JsonPaths
