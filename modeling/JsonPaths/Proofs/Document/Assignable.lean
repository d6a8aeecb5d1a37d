/-
JsonPaths/Proofs/Document/Assignable.lean

Assignments that a document refuses.

An assignment at a path with steps fails exactly if the tree refuses the path; then
the path is not found, which the error says of the whole path, and the document stays
as it was, its leaf index included (`assigned_unless_refused`).
-/
import JsonPaths.Proofs.Document.ReadBack
import JsonPaths.Proofs.Document.Verdict
import JsonPaths.Proofs.Path.Assignable

namespace JsonPaths

/-- The setbacks of a path that is not found: a step leads nowhere, or the last one
cannot be assigned. -/
def Setback.NotFound (steps : List Step) (s : Setback) : Prop :=
  (∃ k, s = .unresolved steps k) ∨ s = .unassignable steps

theorem Setback.NotFound.path {steps : List Step} {s : Setback} (h : s.NotFound steps) :
    s.path = Path.render steps := by
  rcases h with ⟨k, rfl⟩ | rfl <;> rfl

namespace Document

/-- With a step, an assignment writes to the slots of the path, or finds none. -/
theorem assigned_concat (d : Document) (init : List Step) (last : Step) (v : Json) :
    d.assigned (init ++ [last]) v
      = match d.root.target (init ++ [last]) with
        | .ok slots => .ok { d with
            root := Value.write slots (v.withMarks d.next).1 d.root
            next := (v.withMarks d.next).2, index := none }
        | .error o => .error (Error.ofObstacle (init ++ [last]) o) := by
  have hne : init ++ [last] ≠ [] := List.append_ne_nil_of_right_ne_nil _ (List.cons_ne_nil _ _)
  cases hs : init ++ [last] with
  | nil => exact absurd hs hne
  | cons s ss =>
    simp only [assigned, Value.assign]
    cases d.root.target (s :: ss) <;> rfl

/-- An assignment with a step that fails is of a path that is not found. -/
theorem notFound_of_assigned {d : Document} {init : List Step} {last : Step} {v : Json}
    {x : Error} (h : d.assigned (init ++ [last]) v = .error x) :
    ∃ s : Setback, x = .setback s ∧ s.NotFound (init ++ [last]) := by
  rw [assigned_concat] at h
  cases ht : d.root.target (init ++ [last]) with
  | ok slots => simp [ht] at h
  | error o =>
    simp only [ht, Except.error.injEq] at h
    subst h
    rcases Value.target_eq_error ht with ⟨k, rfl⟩ | rfl
    · exact ⟨.unresolved _ k, rfl, .inl ⟨k, rfl⟩⟩
    · exact ⟨.unassignable _, rfl, .inr rfl⟩

section Refused

variable {d : Document} {init : List Step} {last : Step} {v : Json}

theorem exists_assigned_iff :
    (∃ e, d.assigned (init ++ [last]) v = .ok e) ↔ ¬d.root.Refused init last := by
  rw [assigned_concat, ← Value.target_eq_ok_iff]
  cases d.root.target (init ++ [last]) <;> simp

theorem refused_iff_notFound :
    d.root.Refused init last ↔ ∃ s : Setback, d.assigned (init ++ [last]) v = .error (.setback s) ∧
      s.NotFound (init ++ [last]) ∧ s.path = Path.render (init ++ [last]) := by
  constructor
  · intro h
    cases ha : d.assigned (init ++ [last]) v with
    | ok e => exact absurd h (exists_assigned_iff.1 ⟨e, ha⟩)
    | error x =>
      obtain ⟨s, rfl, hs⟩ := notFound_of_assigned ha
      exact ⟨s, rfl, hs, hs.path⟩
  · rintro ⟨s, ha, -⟩
    by_contra h
    obtain ⟨e, he⟩ := exists_assigned_iff.2 h
    rw [ha] at he
    cases he

/-- A call succeeds where the tree does not refuse its path, and changes nothing where it
does. -/
theorem setPath_iff_not_refused {path : Json} {c : Candidate}
    (hp : Path.ofJson path = .ok (init ++ [last])) (hc : c.check = .ok v) :
    ((d.setPath path c).result = .ok true ↔ ¬d.root.Refused init last) ∧
      (d.root.Refused init last → (d.setPath path c).document = d) := by
  rcases setPath_cases d path c with ⟨v', steps, e, hc', hp', ha, hr, -⟩ | ⟨hr, hdoc⟩
  · obtain rfl := Except.ok.inj (hc'.symm.trans hc)
    obtain rfl := Except.ok.inj (hp'.symm.trans hp)
    have h := exists_assigned_iff.1 ⟨e, ha⟩
    exact ⟨iff_of_true hr h, fun h' => absurd h' h⟩
  · refine ⟨iff_of_false hr fun h => ?_, fun _ => hdoc⟩
    obtain ⟨e, he⟩ := exists_assigned_iff.2 h
    exact hr (setPath_of_assigned hc hp he).1

end Refused

/-- **A path with steps is assigned unless the tree refuses it.**  The error then says
that the whole path is not found, and a call that ends in it changes nothing. -/
theorem assigned_unless_refused (d : Document) (init : List Step) (last : Step) (v : Json) :
    ((∃ e, d.assigned (init ++ [last]) v = .ok e) ↔ ¬d.root.Refused init last) ∧
      (d.root.Refused init last ↔
        ∃ s : Setback, d.assigned (init ++ [last]) v = .error (.setback s) ∧
          s.NotFound (init ++ [last]) ∧ s.path = Path.render (init ++ [last])) ∧
      ∀ path c, Path.ofJson path = .ok (init ++ [last]) → c.check = .ok v →
        ((d.setPath path c).result = .ok true ↔ ¬d.root.Refused init last) ∧
          (d.root.Refused init last → (d.setPath path c).document = d) := by
  refine ⟨exists_assigned_iff, refused_iff_notFound, ?_⟩
  intro path c hp hc
  exact setPath_iff_not_refused hp hc

/-- A document of an array in an array, with an object in it. -/
def nested : Document :=
  { pair with root := .array 0 [.array 1 [.object 2 [("a", .int 1)]]] }

/-- A list that was gathered from the inner array is read, but not assigned. -/
theorem assigned_unless_refused_nested :
    nested.root.query [.field "a", .index 0] = .ok (.array () [.int 1]) ∧
      (∃ s : Setback, nested.assigned [.field "a", .index 0] (.int 2) = .error (.setback s) ∧
        s.path = ".a[0]") ∧
      (nested.setPath (.string ".a[0]") (.json (.int 2))).result ≠ .ok true ∧
      (nested.setPath (.string ".a[0]") (.json (.int 2))).document = nested := by
  have hrefused : nested.root.Refused [.field "a"] (.index 0) := .gathered rfl
  have hparse : Path.parse ".a[0]" = .ok [.field "a", .index 0] := by decide +kernel
  obtain ⟨-, herror, hcall⟩ := assigned_unless_refused nested [.field "a"] (.index 0) (.int 2)
  obtain ⟨s, hs, -, hpath⟩ := herror.1 hrefused
  obtain ⟨htrue, hdoc⟩ := hcall _ (.json (.int 2)) (ofJson_of_parse hparse) rfl
  exact ⟨rfl, ⟨s, hs, hpath.trans (by decide)⟩, fun h => htrue.1 h hrefused, hdoc hrefused⟩

end Document

end JsonPaths
