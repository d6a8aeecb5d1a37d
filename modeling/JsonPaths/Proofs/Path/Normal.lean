/-
JsonPaths/Proofs/Path/Normal.lean

The normal form of a path text.

Many texts denote one path: markers may stand anywhere in them, and an index may have
zeros in front.  Rendering the steps gives one text for all of them, and no two paths
share it, because a path that is read has none of the characters in its names that
separate steps (`Denotes.named`).  Steps with such a character in a name can be rendered
but are no longer there when their text is read (`parse_render_iff_plain`).
-/
import JsonPaths.Proofs.Path.Canonical
import Mathlib.Data.List.Basic

namespace JsonPaths

/-- The name of a step, if it has one, is free of the characters that separate steps. -/
def Step.Plain (s : Step) : Prop :=
  ∀ name, s = .field name → ∀ c ∈ name.toList, c ≠ '.' ∧ c ≠ '[' ∧ c ≠ ']'

/-- A name that a step can have has a character, so that it is a name of the grammar if it
has no separator. -/
theorem Step.Valid.named_iff {s : Step} (h : s.Valid) : s.Named ↔ s.Plain := by
  cases s with
  | index i => exact iff_of_true trivial nofun
  | field name =>
    have hne : name.toList ≠ [] := by
      intro he
      rw [String.toList_eq_nil_iff] at he
      rw [he] at h
      exact nomatch (show Step.ofName "" = .ok (.field "") from h)
    constructor
    · rintro hn _ ⟨⟩
      exact hn.plain
    · intro hp
      exact ⟨hne, hp name rfl⟩

namespace Path

/-! ### Steps that are read -/

/-- The steps that a text denotes have names of the grammar. -/
theorem Denotes.named {path : String} {steps : List Step} (h : Denotes path steps) :
    ∀ s ∈ steps, s.Named := by
  refine h.forall_mem (fun name hn => ?_) fun _ _ _ => trivial
  show IsName (String.ofList name).toList
  rwa [String.toList_ofList]

/-- The text of steps is read back to them exactly if no name has a separator. -/
theorem parse_render_iff_plain {steps : List Step} (hv : ∀ s ∈ steps, s.Valid)
    (hw : ∀ s ∈ steps, s.Writable) :
    parse (render steps) = .ok steps ↔ ∀ s ∈ steps, s.Plain := by
  constructor
  · intro h s hs
    have hnamed := (parse_eq_ok.1 h).named s hs
    exact (hv s hs).named_iff.1 hnamed
  · intro hp
    have hnamed : ∀ s ∈ steps, s.Named := fun s hs => (hv s hs).named_iff.2 (hp s hs)
    exact (parse_render_iff hnamed).2 hw

/-- The steps of a path are read from their own text. -/
theorem parse_render_of_parse {path : String} {steps : List Step}
    (h : parse path = .ok steps) : parse (render steps) = .ok steps := by
  have hd := parse_eq_ok.1 h
  exact (parse_render_iff hd.named).2 hd.writable

/-! ### The main result -/

/-- **Canonical form of paths.**  Let steps have names with a character, and places that
are not negative and have not too many digits.  Their text is read back to them exactly if
no name has a dot or a bracket.  The text of the steps that were read from a path is read
to the same steps, and rendering these changes it no more.  So two paths denote the same
steps exactly if their steps have the same text. -/
theorem canonical_form :
    (∀ steps : List Step, (∀ s ∈ steps, s.Valid) → (∀ s ∈ steps, s.Writable) →
        (parse (render steps) = .ok steps ↔ ∀ s ∈ steps, s.Plain)) ∧
      (∀ path steps, parse path = .ok steps →
        parse (render steps) = .ok steps ∧
          (parse (render steps)).map render = .ok (render steps)) ∧
      ∀ path path' steps steps', parse path = .ok steps → parse path' = .ok steps' →
        (steps = steps' ↔ render steps = render steps') := by
  refine ⟨fun steps => parse_render_iff_plain, fun path steps h => ?_,
    fun path path' steps steps' h h' => ?_⟩
  · have hread := parse_render_of_parse h
    rw [hread]
    exact ⟨rfl, rfl⟩
  · constructor
    · exact congrArg render
    · exact render_inj (parse_eq_ok.1 h).named (parse_eq_ok.1 h').named

/-- Two spellings of one path, with markers and with zeros in front. -/
theorem canonical_form_spellings :
    (parse ".[][007].a[]b[][0]" = .ok [.index 7, .field "ab", .index 0] ∧
        parse ".[7].ab[00]" = .ok [.index 7, .field "ab", .index 0]) ∧
      (parse (render [.index 7, .field "ab", .index 0])
          = .ok [.index 7, .field "ab", .index 0] ↔
        ∀ s ∈ [Step.index 7, .field "ab", .index 0], s.Plain) ∧
      (parse (render [.index 7, .field "ab", .index 0])).map render
        = .ok (render [.index 7, .field "ab", .index 0]) := by
  have hfirst : parse ".[][007].a[]b[][0]" = .ok [.index 7, .field "ab", .index 0] := by
    decide +kernel
  have hsecond : parse ".[7].ab[00]" = .ok [.index 7, .field "ab", .index 0] := by
    decide +kernel
  obtain ⟨hplain, hnormal, -⟩ := canonical_form
  have hd := parse_eq_ok.1 hsecond
  exact ⟨⟨hfirst, hsecond⟩, hplain _ hd.valid hd.writable, (hnormal _ _ hfirst).2⟩

end Path

end JsonPaths
