/-
JsonPaths/Proofs/Path/Markers.lean

Markers in path texts.

All markers are dropped before a path is read, in one pass from left to right.  The pass
drops the same from two texts in a row as from each alone, unless a marker lies across the
cut between them (`dropMarkers_append`).  So a marker put into a text is not noticed, in the
steps or in the fault that is found, except where it splits another one: the halves of that
one come together in the text that is left, and what the grammar derives has no marker in it
(`Segments.dropMarkers_eq`).  The main result is `markers_neutral`.
-/
import JsonPaths.Proofs.Path.Canonical
import Mathlib.Data.List.Basic

namespace JsonPaths

namespace Path

/-! ### Dropping markers piece by piece -/

/-- A marker lies across the cut between two texts. -/
def Straddled (s t : List Char) : Prop := s.getLast? = some '[' ∧ t.head? = some ']'

instance (s t : List Char) : Decidable (Straddled s t) :=
  inferInstanceAs (Decidable (_ ∧ _))

theorem Straddled.cons {s t : List Char} (h : Straddled s t) (c : Char) :
    Straddled (c :: s) t := by
  obtain ⟨hs, ht⟩ := h
  refine ⟨?_, ht⟩
  rw [List.getLast?_cons, hs]
  rfl

theorem dropMarkers_cons {c : Char} (h : c ≠ '[') (s : List Char) :
    dropMarkers (c :: s) = c :: dropMarkers s :=
  dropMarkers.eq_2 c s fun _ hc => absurd hc h

/-- Nothing lies across a cut before a character that closes no marker. -/
theorem not_straddled_cons {s t : List Char} {c : Char} (h : c ≠ ']') :
    ¬Straddled s (c :: t) := fun hs => h (Option.some.inj hs.2)

/-- **Markers are dropped from each of two texts alone**, unless one lies across the cut. -/
theorem dropMarkers_append {s t : List Char} (h : ¬Straddled s t) :
    dropMarkers (s ++ t) = dropMarkers s ++ dropMarkers t := by
  fun_induction dropMarkers s with
  | case1 r ih => exact ih fun hr => h ((hr.cons ']').cons '[')
  | case2 c r hc ih =>
    rw [List.cons_append, dropMarkers, ih fun hr => h (hr.cons c)]
    · rfl
    · -- a marker that starts here ends in `r`, or it lies across the cut
      rintro q rfl hq
      cases r with
      | nil => exact h ⟨rfl, by rw [← List.nil_append t, hq]; rfl⟩
      | cons d r =>
        obtain ⟨rfl, -⟩ := List.cons.inj hq
        exact hc r rfl rfl
  | case3 => rfl

theorem dropMarkers_marker (s t : List Char) :
    dropMarkers (s ++ '[' :: ']' :: t) = dropMarkers s ++ dropMarkers t :=
  dropMarkers_append (not_straddled_cons (by decide))

/-- A marker that splits another one leaves a marker. -/
theorem dropMarkers_split (s t : List Char) :
    dropMarkers ((s ++ ['[']) ++ '[' :: ']' :: ']' :: t) =
      dropMarkers s ++ '[' :: ']' :: dropMarkers t := by
  have hopen : dropMarkers (s ++ ['[']) = dropMarkers s ++ ['['] :=
    dropMarkers_append (not_straddled_cons (by decide))
  rw [dropMarkers_marker, hopen, dropMarkers_cons (by decide), List.append_assoc]
  rfl

/-! ### Derived texts have no marker -/

theorem length_dropMarkers_le (s : List Char) : (dropMarkers s).length ≤ s.length := by
  fun_induction dropMarkers s with
  | case1 r ih =>
    simp only [List.length_cons]
    omega
  | case2 c r _ ih => exact Nat.succ_le_succ ih
  | case3 => exact Nat.le_refl 0

theorem Indexes.dropMarkers_eq {r : List Char} {ss : List Step} (h : Indexes r ss) :
    dropMarkers r = r := by
  induction h with
  | nil => rfl
  | cons hd _ _ ih => exact unmarked_iff.1 (.bracket hd (unmarked_iff.2 ih))

theorem Segment.dropMarkers_eq {bare : Bool} {s : List Char} {ss : List Step}
    (h : Segment bare s ss) : dropMarkers s = s := by
  cases h with
  | named hn hr => exact unmarked_iff.1 (.append hn.notMem (unmarked_iff.2 hr.dropMarkers_eq))
  | bare _ hr => exact hr.dropMarkers_eq

/-- What the grammar derives is left as it is. -/
theorem Segments.dropMarkers_eq {bare : Bool} {s : List Char} {ss : List Step}
    (h : Segments bare s ss) : dropMarkers s = s := by
  induction h with
  | last hs => exact hs.dropMarkers_eq
  | cons hs _ ih =>
    rw [dropMarkers_append (not_straddled_cons (by decide)), dropMarkers_cons (by decide),
      hs.dropMarkers_eq, ih]

theorem not_segments_of_marker {bare : Bool} {s t : List Char} {ss : List Step} :
    ¬Segments bare (s ++ '[' :: ']' :: t) ss := by
  intro h
  have hlen := congrArg List.length h.dropMarkers_eq
  have hs := length_dropMarkers_le s
  have ht := length_dropMarkers_le t
  rw [dropMarkers_marker] at hlen
  simp only [List.length_append, List.length_cons] at hlen
  omega

/-! ### Reading -/

section Reading

variable {u v : String} (hu : u.toList.head? = some '.')

include hu

/-- A marker that splits no other one is not noticed. -/
theorem parse_insert (h : ¬Straddled u.toList v.toList) :
    parse (u ++ "[]" ++ v) = parse (u ++ v) := by
  obtain ⟨s, hs⟩ := List.head?_eq_some_iff.1 hu
  rw [hs] at h
  have hmarked : (u ++ "[]" ++ v).toList = '.' :: (s ++ '[' :: ']' :: v.toList) := by
    simp [hs]
  have hplain : (u ++ v).toList = '.' :: (s ++ v.toList) := by simp [hs]
  rw [parse, parse, hmarked, hplain, readChars_dot, readChars_dot, dropMarkers_marker,
    dropMarkers_append fun hv => h (hv.cons '.')]

/-- A marker that splits another one leaves no path. -/
theorem parse_split (h : Straddled u.toList v.toList) (steps : List Step) :
    parse (u ++ "[]" ++ v) ≠ .ok steps := by
  obtain ⟨s, hs⟩ := List.head?_eq_some_iff.1 hu
  obtain ⟨hlast, hhead⟩ := h
  obtain ⟨t, ht⟩ := List.head?_eq_some_iff.1 hhead
  -- the bracket at the end of `u` is not its leading dot
  obtain ⟨r, rfl⟩ : ∃ r, s = r ++ ['['] := by
    obtain ⟨r, hr⟩ := List.getLast?_eq_some_iff.1 hlast
    rw [hs] at hr
    cases r with
    | nil => exact absurd (List.cons.inj hr).1 (by decide)
    | cons c r => exact ⟨r, (List.cons.inj hr).2⟩
  have hsplit : (u ++ "[]" ++ v).toList = '.' :: ((r ++ ['[']) ++ '[' :: ']' :: ']' :: t) := by
    simp [hs, ht]
  rw [Ne, parse_eq_ok, denotes_iff hsplit, dropMarkers_split]
  rintro (⟨h, -⟩ | h)
  · simp at h
  · exact not_segments_of_marker h

end Reading

/-- Outcomes of reading two paths that agree: the same steps, the same fault, said of each
path, or an index with the same number of digits, which are too many. -/
inductive Agree (path path' : String) :
    Except Error (List Step) → Except Error (List Step) → Prop
  | steps (ss : List Step) : Agree path path' (.ok ss) (.ok ss)
  | fault (f : PathFault) :
      Agree path path' (.error (.setback (.malformed path f)))
        (.error (.setback (.malformed path' f)))
  | tooManyDigits (n : Nat) :
      Agree path path' (.error (.tooManyDigits n)) (.error (.tooManyDigits n))

theorem agree_of_parse {path path' : String} (h : parse path = parse path') :
    Agree path path' (ofJson (.string path)) (ofJson (.string path')) := by
  simp only [ofJson, h]
  rcases parse path' with (f | n) | ss
  · exact .fault f
  · exact .tooManyDigits n
  · exact .steps ss

/-- `Sprinkled path path'`: the second is the first with markers put in one after the other,
each behind the leading dot and none within another marker. -/
inductive Sprinkled (path : String) : String → Prop
  | nil : Sprinkled path path
  | insert {u v : String} : Sprinkled path (u ++ v) → u.toList.head? = some '.' →
      ¬Straddled u.toList v.toList → Sprinkled path (u ++ "[]" ++ v)

theorem Sprinkled.parse_eq {path path' : String} (h : Sprinkled path path') :
    parse path' = parse path := by
  induction h with
  | nil => rfl
  | insert _ hu hv ih => rw [parse_insert hu hv, ih]

/-- **Markers are neutral.**  A marker put into a text behind its leading dot changes neither
the steps that are read nor the kind and the reason of the error, unless it splits another
marker, and then no steps are read.  So any number of markers put into a path, none of them
within another, leave its steps as they are. -/
theorem markers_neutral :
    (∀ u v : String, u.toList.head? = some '.' → ¬Straddled u.toList v.toList →
        Agree (u ++ "[]" ++ v) (u ++ v) (ofJson (.string (u ++ "[]" ++ v)))
          (ofJson (.string (u ++ v)))) ∧
      (∀ u v : String, u.toList.head? = some '.' → Straddled u.toList v.toList →
        ∀ steps, ofJson (.string (u ++ "[]" ++ v)) ≠ .ok steps) ∧
      ∀ path path' steps, Sprinkled path path' → ofJson (.string path) = .ok steps →
        ofJson (.string path') = .ok steps := by
  refine ⟨fun u v hu h => agree_of_parse (parse_insert hu h), fun u v hu h steps => ?_,
    fun path path' steps hs h => ?_⟩
  · rw [Ne, ofJson_eq_ok, ← parse_eq_ok]
    exact parse_split hu h steps
  · rw [ofJson_eq_ok, ← parse_eq_ok] at h ⊢
    rw [hs.parse_eq, h]

/-- A marker within brackets that hold a digit, one that splits another, and two in a row. -/
theorem markers_neutral_brackets :
    Agree ".a[[]7]" ".a[7]" (ofJson (.string ".a[[]7]")) (ofJson (.string ".a[7]")) ∧
      ofJson (.string ".a[[]]") ≠ .ok [.field "a"] ∧
      Sprinkled ".a[7]" ".a[[][]7]" ∧
      ofJson (.string ".a[[][]7]") = .ok [.field "a", .index 7] := by
  obtain ⟨hinsert, hsplit, hall⟩ := markers_neutral
  have hone : Sprinkled ".a[7]" ".a[[]7]" :=
    .insert (u := ".a[") (v := "7]") .nil (by decide) (by decide)
  have htwo : Sprinkled ".a[7]" ".a[[][]7]" :=
    .insert (u := ".a[[]") (v := "7]") hone (by decide) (by decide)
  have hparse : parse ".a[7]" = .ok [.field "a", .index 7] := by decide +kernel
  have hread := ofJson_eq_ok.2 (parse_eq_ok.1 hparse)
  exact ⟨hinsert ".a[" "7]" (by decide) (by decide), hsplit ".a[" "]" (by decide) (by decide) _,
    htwo, hall _ _ _ htwo hread⟩

end Path

end JsonPaths
