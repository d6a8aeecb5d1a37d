/-
JsonPaths/Proofs/Document/Verdict.lean

What calls on a document come to before they are reported.

The verdict of a call is its answer, or the error that stops it; with the document
that the call leaves behind it is found without a look at the flags.  The flags
come in when the verdict is reported, and only if it is a setback: such an error is
raised or replaced by a fallback answer, with a warning or without one.  Every call
is its verdict, reported (`call_eq_reported`).
-/
import JsonPaths.Proofs.Document.Calls

namespace JsonPaths

/-! ### What reports say -/

namespace Call

/-- The operation of a call, by the name that warnings have for it. -/
def operation : Call → String
  | .query _ => "query"
  | .set _ _ => "set_path"
  | .paths => "paths"
  | .find _ => "get_paths_to_value"
  | .flags _ => "flags"

/-- What a warning says that a call is about: its path, or the text of the value
that it searches.  Building the leaf index and changing the flags are never warned
of. -/
def subject : Call → String
  | .query path | .set path _ => Document.pathText path
  | .find c => (c.check.toOption.bind (Json.write .spaced)).getD ""
  | .paths | .flags _ => ""

/-- The answer that stands for a setback that is not raised. -/
def fallback : Call → Reply
  | .query _ => .text ""
  | .set _ _ => .truth false
  | .find _ => .names []
  | .paths | .flags _ => .nothing

/-- The records of a call that goes well. -/
def notes : Call → List Record
  | .set path _ => [⟨Log.debug, s!"set {Document.pathText path}", none⟩]
  | _ => []

/-- The warning that a call has failed with a setback. -/
def warning (c : Call) (s : Setback) : Record :=
  ⟨Log.warning, s!"{c.operation} {c.subject} failed: {s.message}", some c.subject⟩

end Call

namespace Document

/-! ### Verdicts -/

/-- The document after an assignment of a candidate, if nothing stops it. -/
def placed (d : Document) (path : Json) (c : Candidate) : Except Error Document := do
  let v ← checked .assigned c
  let steps ← Path.ofJson path
  d.assigned steps v

theorem placed_of_check {c : Candidate} {v : Json} (h : c.check = .ok v) (d : Document)
    (path : Json) : d.placed path c = (do d.assigned (← Path.ofJson path) v) := by
  rw [placed, checked_of_check h]
  rfl

theorem placed_of_refused {c : Candidate} {p : Graph.Problem} (h : c.check = .error p)
    (d : Document) (path : Json) : d.placed path c = .error (.ofProblem .assigned p) := by
  rw [placed, checked_of_refused h]
  rfl

/-- An assignment is stopped by its value or by its path, or it is made. -/
theorem placed_cases (d : Document) (path : Json) (c : Candidate) :
    (∃ x, checked .assigned c = .error x ∧ d.placed path c = .error x) ∨
      (∃ x, Path.ofJson path = .error x ∧ d.placed path c = .error x) ∨
        ∃ v steps, c.check = .ok v ∧ Path.ofJson path = .ok steps ∧
          d.placed path c = d.assigned steps v := by
  cases hc : c.check with
  | error p => exact .inl ⟨_, checked_of_refused hc, placed_of_refused hc d path⟩
  | ok v =>
    rw [placed_of_check hc]
    cases hp : Path.ofJson path with
    | error x => exact .inr (.inl ⟨x, rfl, rfl⟩)
    | ok steps => exact .inr (.inr ⟨v, steps, rfl, rfl, rfl⟩)

/-- The answer of a call, or the error that stops it.  An answer that has no text is an
error, and so is what would be said of a search for a value that has none. -/
def verdict (d : Document) : Call → Except Error Reply
  | .query path => do
    let steps ← Path.ofJson path
    let v ← (d.root.query steps).mapError (Error.ofObstacle steps)
    return .text (← Error.orTooLong (Json.compactText v))
  | .set path c => (d.placed path c).map fun _ => .truth true
  | .paths => .ok (.index d.value.leafIndex)
  | .find c => do
    let v ← checked .searched c
    match d.value.leafIndex.find v with
    | [] => .error (.absent v)
    | ps => .ok (.names ps)
  | .flags _ => .ok .nothing

/-- The document that a call leaves behind.  A search builds the leaf index also if
it finds nothing. -/
def after (d : Document) : Call → Document
  | .query _ => d
  | .set path c => (d.placed path c).toOption.getD d
  | .paths => d.indexed
  | .find c => if c.check.toOption.isSome then d.indexed else d
  | .flags options => Session.changeFlags options d

/-- A verdict as the flags of a document have it reported. -/
def reported (d : Document) (c : Call) : Except Error Reply → Outcome Reply
  | .ok r => ⟨.ok r, d.after c, c.notes⟩
  | .error (.setback s) =>
    ⟨if d.suppressErrors.on then .ok c.fallback else .error (.setback s), d.after c,
      if d.suppressDiagnostics.on then [] else [c.warning s]⟩
  | .error e => ⟨.error e, d.after c, []⟩

/-- That a value is refused is no setback. -/
theorem reported_ofProblem (d : Document) (c : Call) (role : Role) (p : Graph.Problem) :
    d.reported c (.error (.ofProblem role p)) = ⟨.error (.ofProblem role p), d.after c, []⟩ := by
  cases p <;> rfl

theorem map_settle {α β : Type} (f : α → β) (d : Document) (operation subject : String)
    (fallback : α) (e : Error) :
    (d.settle operation subject fallback e).map f
      = d.settle operation subject (f fallback) e := by
  cases e with
  | setback s =>
    simp only [settle, Outcome.map]
    split <;> rfl
  | _ => rfl

/-- Settling is reporting, where the call leaves its flags alone. -/
theorem settle_eq_reported {d d' : Document} (c : Call) (h : d.after c = d')
    (herrors : d'.suppressErrors = d.suppressErrors)
    (hdiagnostics : d'.suppressDiagnostics = d.suppressDiagnostics) (e : Error) :
    d'.settle c.operation c.subject c.fallback e = d.reported c (.error e) := by
  subst h
  cases e with
  | setback s => simp only [settle, reported, Call.warning, herrors, hdiagnostics]
  | _ => rfl

/-- The value that a path leads to, or the error that stops the search for it. -/
def found (d : Document) (path : Json) : Except Error Json := do
  let steps ← Path.ofJson path
  (d.root.query steps).mapError (Error.ofObstacle steps)

theorem verdict_query (d : Document) (path : Json) :
    d.verdict (.query path) = do
      let v ← d.found path
      return .text (← Error.orTooLong (Json.compactText v)) := by
  rw [verdict, found]
  cases Path.ofJson path with
  | error e => rfl
  | ok steps => rfl

/-- A query is stopped by its path, or since what it finds has no text. -/
theorem verdict_query_eq_error_iff {d : Document} {path : Json} {e : Error} :
    d.verdict (.query path) = .error e ↔ d.found path = .error e ∨
      e = .tooLong ∧ ∃ w, d.found path = .ok w ∧ ¬w.WithinDigits := by
  rw [verdict_query]
  cases d.found path with
  | error x => simp [bind, Except.bind]
  | ok w =>
    cases ht : Json.compactText w with
    | none =>
      have hn := (Json.write_eq_none_iff .compact w).1 ht
      simp [bind, Except.bind, Error.orTooLong, ht, hn, eq_comm]
    | some t =>
      have hn := (Json.exists_write_iff .compact w).1 ⟨t, ht⟩
      simp [bind, Except.bind, pure, Except.pure, Error.orTooLong, ht, hn]

theorem verdict_query_eq_ok_iff {d : Document} {path : Json} {r : Reply} :
    d.verdict (.query path) = .ok r ↔
      ∃ w t, d.found path = .ok w ∧ Json.compactText w = some t ∧ r = .text t := by
  rw [verdict_query]
  cases d.found path with
  | error x => simp [bind, Except.bind]
  | ok w =>
    cases ht : Json.compactText w with
    | none => simp [bind, Except.bind, Error.orTooLong, ht]
    | some t => simp [bind, Except.bind, pure, Except.pure, Error.orTooLong, ht, eq_comm]

theorem query_eq_reported (d : Document) (path : Json) :
    (d.query path).map Reply.text = d.reported (.query path) (d.verdict (.query path)) := by
  rw [verdict_query, query, ← found]
  cases hf : d.found path with
  | error e =>
    show (d.settle "query" (pathText path) "" e).map Reply.text = _
    rw [map_settle]
    exact settle_eq_reported (.query path) rfl rfl rfl e
  | ok v =>
    simp only [bind, Except.bind]
    cases ht : Json.compactText v <;> rfl

theorem setPath_eq_reported (d : Document) (path : Json) (c : Candidate) :
    (d.setPath path c).map Reply.truth
      = d.reported (.set path c) (d.verdict (.set path c)) := by
  cases hc : c.check with
  | error p =>
    have hplaced := placed_of_refused hc d path
    have hafter : d.after (.set path c) = d := by rw [after, hplaced]; rfl
    rw [setPath_of_refused hc, verdict, hplaced, Except.map, reported_ofProblem, hafter]
    rfl
  | ok v =>
    rw [setPath_of_check hc, setJson, ← placed_of_check hc, verdict]
    cases hp : d.placed path c with
    | error e =>
      have hafter : d.after (.set path c) = d := by rw [after, hp]; rfl
      show (d.settle "set_path" (pathText path) false e).map Reply.truth = _
      rw [map_settle]
      exact settle_eq_reported (.set path c) hafter rfl rfl e
    | ok e =>
      have hafter : d.after (.set path c) = e := by rw [after, hp]; rfl
      rw [Except.map, reported, hafter]
      rfl

theorem find_eq_reported (d : Document) (c : Candidate) :
    (d.find c).map Reply.names = d.reported (.find c) (d.verdict (.find c)) := by
  cases hc : c.check with
  | error p =>
    have hafter : d.after (.find c) = d := by rw [after, hc]; rfl
    have hverdict : d.verdict (.find c) = .error (.ofProblem .searched p) := by
      rw [verdict, checked_of_refused hc]
      rfl
    rw [find, checked_of_refused hc, hverdict, reported_ofProblem, hafter]
    rfl
  | ok v =>
    have hafter : d.after (.find c) = d.indexed := by rw [after, hc]; rfl
    rw [find, checked_of_check hc]
    show (d.findJson v).map Reply.names = _
    cases hl : d.value.leafIndex.find v with
    | nil =>
      have hverdict : d.verdict (.find c) = .error (.absent v) := by
        rw [verdict, checked_of_check hc]
        simp [hl, bind, Except.bind]
      rw [findJson, hl, hverdict]
      cases ht : Json.write .spaced v with
      | none =>
        rw [Error.absent_of_not_withinDigits ((Json.write_eq_none_iff .spaced v).1 ht), reported,
          hafter]
        · rfl
        · exact nofun
      | some t =>
        have hsubject : (Call.find c).subject = t := by
          rw [Call.subject, hc]
          simp [Except.toOption, ht]
        show (d.indexed.settle "get_paths_to_value" t [] _).map Reply.names = _
        rw [← hsubject, map_settle]
        exact settle_eq_reported (.find c) hafter rfl rfl _
    | cons p ps =>
      have hverdict : d.verdict (.find c) = .ok (.names (p :: ps)) := by
        rw [verdict, checked_of_check hc]
        simp [hl, bind, Except.bind]
      rw [findJson, hl, hverdict, reported, hafter]
      rfl

/-- **Every call is its verdict, reported.** -/
theorem call_eq_reported (d : Document) (c : Call) : d.call c = d.reported c (d.verdict c) := by
  cases c with
  | query path => exact query_eq_reported d path
  | set path c => exact setPath_eq_reported d path c
  | paths => rfl
  | find c => exact find_eq_reported d c
  | flags options => rfl

theorem document_reported (d : Document) (c : Call) (r : Except Error Reply) :
    (d.reported c r).document = d.after c := by
  cases r with
  | ok r => rfl
  | error e => cases e <;> rfl

theorem document_call (d : Document) (c : Call) : (d.call c).document = d.after c := by
  rw [call_eq_reported, document_reported]

end Document

end JsonPaths
