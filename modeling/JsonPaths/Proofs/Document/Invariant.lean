/-
JsonPaths/Proofs/Document/Invariant.lean

What holds of a document between calls.

`Valid` says it in one place: the root is not null, a mark stands for one container,
marks from `next` on are free, and a leaf index that is kept is that of the value.
Fresh documents are valid (`valid_ofJson`), and a call on a valid document, however it
ends, leaves a valid one (`Valid.after`); so every reachable document is valid
(`ReachableBy.valid`).  As a mark stands for one container, no container is reached
from itself.  A call ends in an error that is foreseen or in none, so it meets no value
of a kind that JSON does not have (`foreseen_of_call`).
-/
import JsonPaths.Proofs.Document.Assignable
import JsonPaths.Proofs.Document.PlainUpdate
import JsonPaths.Proofs.Value.Acyclic

namespace JsonPaths

/-! ### The root -/

namespace Value

theorem withMarks_ne_null {v : Json} (h : v ≠ .null) (n : Nat) : (v.withMarks n).1 ≠ .null := by
  cases v with
  | null => exact absurd rfl h
  | _ => exact nofun

theorem write_ne_null {v : Shared} (h : v ≠ .null) (slots : List (Slot Nat)) (new : Shared) :
    write slots new v ≠ .null := by
  cases v with
  | null => exact absurd rfl h
  | _ => simp [write]

end Value

/-! ### Errors -/

/-- The errors that calls on documents end in: setbacks, a number with too many digits
that is read in a path or would be written, a path that is no text, a null document, and
a value that is not JSON. -/
def Error.Foreseen : Error → Prop
  | .setback _ | .tooManyDigits _ | .tooLong | .pathNotText _ | .nullDocument
  | .notJson _ _ => True
  | _ => False

theorem Error.foreseen_ofProblem (role : Role) (p : Graph.Problem) :
    (ofProblem role p).Foreseen := by
  cases p <;> trivial

theorem Error.foreseen_absent (v : Json) : (absent v).Foreseen := by
  unfold absent
  split <;> trivial

theorem Path.foreseen_of_ofJson {path : Json} {e : Error} (h : Path.ofJson path = .error e) :
    e.Foreseen := by
  unfold Path.ofJson at h
  split at h
  · split at h
    · cases h
    · cases h
      trivial
    · cases h
      trivial
  · cases h
    trivial

namespace Document

theorem foreseen_of_checked {role : Role} {c : Candidate} {e : Error}
    (h : checked role c = .error e) : e.Foreseen := by
  cases hc : c.check with
  | error p =>
    rw [checked_of_refused hc] at h
    exact Except.error.inj h ▸ Error.foreseen_ofProblem role p
  | ok v =>
    rw [checked_of_check hc] at h
    cases h

theorem foreseen_of_found {d : Document} {path : Json} {e : Error}
    (h : d.found path = .error e) : e.Foreseen := by
  cases hp : Path.ofJson path with
  | error x =>
    rw [found, hp] at h
    cases h
    exact Path.foreseen_of_ofJson hp
  | ok steps =>
    have hquery : (d.root.query steps).mapError (Error.ofObstacle steps) = .error e := by
      rwa [found, hp] at h
    cases hq : d.root.query steps with
    | error o =>
      rw [hq] at hquery
      cases hquery
      obtain ⟨k, rfl⟩ := Place.walk_eq_error (Except.map_eq_error.1 hq)
      trivial
    | ok v =>
      rw [hq] at hquery
      cases hquery

theorem foreseen_of_assigned {d : Document} {steps : List Step} {v : Json} {e : Error}
    (h : d.assigned steps v = .error e) : e.Foreseen := by
  rcases steps.eq_nil_or_concat' with rfl | ⟨init, last, rfl⟩
  · -- without a step only null is refused
    cases v <;> cases h
    trivial
  · obtain ⟨s, rfl, -⟩ := notFound_of_assigned h
    trivial

theorem foreseen_of_placed {d : Document} {path : Json} {c : Candidate} {e : Error}
    (h : d.placed path c = .error e) : e.Foreseen := by
  rcases d.placed_cases path c with ⟨x, hc, hx⟩ | ⟨x, hp, hx⟩ | ⟨v, steps, -, -, ha⟩
  · obtain rfl := Except.error.inj (hx.symm.trans h)
    exact foreseen_of_checked hc
  · obtain rfl := Except.error.inj (hx.symm.trans h)
    exact Path.foreseen_of_ofJson hp
  · exact foreseen_of_assigned (ha.symm.trans h)

theorem foreseen_of_verdict {d : Document} {c : Call} {e : Error}
    (h : d.verdict c = .error e) : e.Foreseen := by
  cases c with
  | query path =>
    rcases verdict_query_eq_error_iff.1 h with h | ⟨rfl, -⟩
    · exact foreseen_of_found h
    · trivial
  | set path c => exact foreseen_of_placed (Except.map_eq_error.1 h)
  | paths => cases h
  | find c =>
    cases hc : c.check with
    | error p =>
      rw [verdict, checked_of_refused hc] at h
      exact Except.error.inj h ▸ Error.foreseen_ofProblem .searched p
    | ok v =>
      rw [verdict, checked_of_check hc] at h
      simp only [bind, Except.bind] at h
      split at h
      · exact Except.error.inj h ▸ Error.foreseen_absent v
      · cases h
  | flags options => cases h

/-- What is raised is what stopped the call. -/
theorem verdict_of_result {d : Document} {c : Call} {e : Error}
    (h : (d.call c).result = .error e) : d.verdict c = .error e := by
  rw [call_eq_reported] at h
  cases hv : d.verdict c with
  | ok r =>
    rw [hv] at h
    cases h
  | error x =>
    rw [hv] at h
    cases x with
    | setback s =>
      simp only [reported] at h
      split at h <;> cases h
      rfl
    | _ =>
      cases h
      rfl

/-- **Calls end in no other errors than those foreseen.** -/
theorem foreseen_of_call {d : Document} {c : Call} {e : Error}
    (h : (d.call c).result = .error e) : e.Foreseen :=
  foreseen_of_verdict (verdict_of_result h)

/-! ### Valid documents -/

/-- What holds of a document between calls. -/
structure Valid (d : Document) : Prop where
  root_ne_null : d.root ≠ .null
  sound : Sound d.root d.next
  index : d.index = none ∨ d.index = some d.value.leafIndex

theorem valid_ofJson {config : Config} {options : Options} {v : Json} {d : Document}
    (h : ofJson config options v = .ok d) : d.Valid := by
  have hv : v ≠ .null := by
    rintro rfl
    cases h
  obtain ⟨hroot, hnext⟩ := ofJson_eq_ok h
  have hsound : Sound d.root d.next := by
    rw [hroot, hnext]
    exact sound_withMarks v 0
  refine ⟨?_, hsound, .inl (index_of_ofJson h)⟩
  rw [hroot]
  exact Value.withMarks_ne_null hv 0

namespace Valid

variable {d e : Document}

theorem assigned (h : d.Valid) {steps : List Step} {v : Json}
    (he : d.assigned steps v = .ok e) : e.Valid := by
  have hsound := h.sound.assigned he
  obtain ⟨hrest, hroot⟩ := assigned_eq_ok he
  refine ⟨?_, hsound, .inl (congrArg Document.index hrest)⟩
  rcases hroot with ⟨-, hv, hroot⟩ | ⟨slots, -, hroot⟩
  · rw [hroot]
    exact Value.withMarks_ne_null hv d.next
  · rw [hroot]
    exact Value.write_ne_null h.root_ne_null slots _

theorem indexed (h : d.Valid) : d.indexed.Valid :=
  ⟨h.root_ne_null, h.sound, .inr rfl⟩

theorem changeFlags (h : d.Valid) (options : Options) : (Session.changeFlags options d).Valid :=
  ⟨h.root_ne_null, h.sound, h.index⟩

/-- Whatever call is made, and however it ends, it leaves a valid document. -/
theorem after (h : d.Valid) (c : Call) : (d.after c).Valid := by
  cases c with
  | query path => exact h
  | set path c =>
    show ((d.placed path c).toOption.getD d).Valid
    rcases d.placed_cases path c with ⟨x, -, hx⟩ | ⟨x, -, hx⟩ | ⟨v, steps, -, -, ha⟩
    · rw [hx]
      exact h
    · rw [hx]
      exact h
    · rw [ha]
      cases he : d.assigned steps v with
      | error x => exact h
      | ok e => exact h.assigned he
  | paths => exact h.indexed
  | find c =>
    show (if c.check.toOption.isSome then d.indexed else d).Valid
    split
    · exact h.indexed
    · exact h
  | flags options => exact h.changeFlags options

end Valid

theorem ReachableBy.valid {given : Candidate → Prop} {allowed : Document → Call → Prop}
    {d : Document} (h : ReachableBy given allowed d) : d.Valid := by
  refine h.ind (motive := Valid) ?_ ?_
  · intro config options v d _ hd
    exact valid_ofJson hd
  · intro d c _ _ hd
    rw [document_call]
    exact hd.after c

/-- **What holds in every reachable state.**  The document is valid and without a
cycle, and its objects are maps if those of the given values are; no call on it meets a
value of a kind that JSON does not have; an assignment that returns true drops the leaf
index, and one that does not leaves the whole document as it was. -/
theorem invariant_of_reachable {d : Document} (hd : d.Reachable) :
    d.Valid ∧ d.root.Acyclic ∧ (d.ProperReachable → d.root.Distinct) ∧
      (∀ c shown, (d.call c).result ≠ .error (.foreign shown)) ∧
      ∀ path c,
        ((d.setPath path c).result = .ok true → (d.setPath path c).document.index = none) ∧
          ((d.setPath path c).result ≠ .ok true → (d.setPath path c).document = d) := by
  have hvalid := hd.valid
  refine ⟨hvalid, hvalid.sound.consistent.acyclic, fun h => h.distinct fun _ _ hc => hc,
    fun c shown h => foreseen_of_call h, fun path c => ?_⟩
  rcases setPath_cases d path c with ⟨v, steps, e, -, -, ha, hr, hdoc⟩ | ⟨hr, hdoc⟩
  · rw [hdoc]
    exact ⟨fun _ => congrArg index (assigned_eq_ok ha).1, fun h => absurd hr h⟩
  · exact ⟨fun h => absurd h hr, fun _ => hdoc⟩

/-- The pair that shares an object, with its leaf index built. -/
theorem invariant_of_reachable_sharing :
    sharing.indexed.Reachable ∧ sharing.indexed.index = some sharing.value.leafIndex ∧
      sharing.indexed.Valid ∧ sharing.indexed.root.Acyclic ∧
      ∀ path c,
        ((sharing.indexed.setPath path c).result = .ok true →
            (sharing.indexed.setPath path c).document.index = none) ∧
          ((sharing.indexed.setPath path c).result ≠ .ok true →
            (sharing.indexed.setPath path c).document = sharing.indexed) := by
  have hreachable : sharing.indexed.Reachable := .call .paths reachable_sharing trivial
  obtain ⟨hvalid, hacyclic, -, -, hset⟩ := invariant_of_reachable hreachable
  exact ⟨hreachable, rfl, hvalid, hacyclic, hset⟩

end Document

end JsonPaths
