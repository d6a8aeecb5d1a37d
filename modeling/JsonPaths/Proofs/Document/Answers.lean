/-
JsonPaths/Proofs/Document/Answers.lean

Equal values answer alike.

Two runs take the same path, each in a value of its own, and the values are equal as the
program compares them: their objects may list their members in different orders, and a
number may be whole in the one and a double in the other.  Then both runs read equal
values, or fail with the same error.  If no container is at two positions, both can be
assigned equal values at the path and are left equal, or refuse it with the same error
(`equal_answers`).  A shared container would tell the values apart: a write to it shows at
every position that it has.
-/
import JsonPaths.Proofs.Document.Assignable
import JsonPaths.Proofs.Document.Raised
import JsonPaths.Proofs.Path.Same

namespace JsonPaths.Value

variable {μ ν : Type} {a v : Value μ} {b w : Value ν}

/-! ### Reading -/

/-- What is read from a value whose objects have distinct keys has distinct keys. -/
theorem Distinct.query (ha : a.Distinct) {steps : List Step} {j : Json}
    (h : a.query steps = .ok j) : j.Distinct := by
  rw [← query_erase] at h
  refine forall_query (P := Distinct) (fun _ _ hc => ?_) (fun items hitems => ?_) h
  · exact (distinct_erase.2 ha).of_contains hc
  · exact distinct_array_iff.2 hitems

/-- What is read from equal values is equal, or the same step leads nowhere. -/
theorem query_same (ha : a.Distinct) (h : a.Matches b) (steps : List Step) :
    (∃ x y, a.query steps = .ok x ∧ b.query steps = .ok y ∧ x.equal y = true) ∨
      ∃ k, a.query steps = .error (.unresolved k) ∧ b.query steps = .error (.unresolved k) := by
  rcases Place.walk_same 0 steps (.value h) with ⟨o, hp, hq⟩ | ⟨p, q, hp, hq, hpq⟩
  · obtain ⟨k, rfl⟩ := Place.walk_eq_error hp
    exact .inr ⟨k, Except.map_eq_error.2 hp, Except.map_eq_error.2 hq⟩
  · have hx : a.query steps = .ok p.plain := query_eq_ok.2 ⟨p, hp, rfl⟩
    have hy : b.query steps = .ok q.plain := query_eq_ok.2 ⟨q, hq, rfl⟩
    exact .inl ⟨_, _, hx, hy, (equal_iff (ha.query hx)).2 (Place.plain_same hpq)⟩

/-! ### Assigning -/

variable [DecidableEq μ] [DecidableEq ν]

/-- Equal values without shared containers stay equal, or nothing can be assigned in
either for one reason. -/
theorem assign_same (ha : a.Distinct) (hv : v.Distinct) (h : a.Matches b) (hvw : v.Matches w)
    (hua : a.Unshared) (hub : b.Unshared) (steps : List Step) :
    (∃ a' b', a.assign steps v = .ok a' ∧ b.assign steps w = .ok b' ∧ a'.equal b' = true) ∨
      ∃ o, a.target steps = .error o ∧ a.assign steps v = .error o ∧
        b.assign steps w = .error o := by
  rcases target_same steps h.partners with ⟨o, ht, ht'⟩ | ⟨l, l', ht, ht', hl⟩
  · exact .inr ⟨o, ht, Except.map_eq_error.2 ht, Except.map_eq_error.2 ht'⟩
  · have hwritten := write_same (partners_biUnique hua hub) hl hvw h.partners
    refine .inl ⟨_, _, ?_, ?_, (equal_iff (ha.write hv)).2 hwritten⟩
    · exact congrArg (Except.map _) ht
    · exact congrArg (Except.map _) ht'

/-! ### The main result -/

/-- **Equal values answer alike.**  A path leads to equal values in both, or to none with
one and the same error.  If no container is at two positions, equal values can be assigned
at a path with steps in both and leave them equal, or in neither with one and the same
error. -/
theorem equal_answers (ha : a.Distinct) (hab : a.equal b = true) :
    (∀ steps : List Step,
      (∃ x y, a.query steps = .ok x ∧ b.query steps = .ok y ∧ x.equal y = true) ∨
        ∃ s : Setback, s.NotFound steps ∧ s.path = Path.render steps ∧
          (a.query steps).mapError (Error.ofObstacle steps) = .error (.setback s) ∧
          (b.query steps).mapError (Error.ofObstacle steps) = .error (.setback s)) ∧
    (a.Unshared → b.Unshared → v.Distinct → v.equal w = true →
      ∀ (init : List Step) (last : Step),
        (∃ a' b', a.assign (init ++ [last]) v = .ok a' ∧ b.assign (init ++ [last]) w = .ok b' ∧
            a'.equal b' = true) ∨
          ∃ s : Setback, s.NotFound (init ++ [last]) ∧ s.path = Path.render (init ++ [last]) ∧
            (a.assign (init ++ [last]) v).mapError (Error.ofObstacle (init ++ [last])) =
              .error (.setback s) ∧
            (b.assign (init ++ [last]) w).mapError (Error.ofObstacle (init ++ [last])) =
              .error (.setback s)) := by
  have h := (equal_iff ha).1 hab
  constructor
  · intro steps
    refine (query_same ha h steps).imp_right ?_
    rintro ⟨k, hk, hk'⟩
    rw [hk, hk']
    exact ⟨.unresolved steps k, .inl ⟨k, rfl⟩, rfl, rfl, rfl⟩
  · intro hua hub hv hvw init last
    refine (assign_same ha hv h ((equal_iff hv).1 hvw) hua hub (init ++ [last])).imp_right ?_
    rintro ⟨o, ht, ho, ho'⟩
    rw [ho, ho']
    rcases target_eq_error ht with ⟨k, rfl⟩ | rfl
    · exact ⟨.unresolved _ k, .inl ⟨k, rfl⟩, rfl, rfl, rfl⟩
    · exact ⟨.unassignable _, .inr rfl, rfl, rfl, rfl⟩

/-- Two objects with their members in different orders, where the same field of the items
of an array is overwritten. -/
theorem equal_answers_reordered :
    ∃ a' b' : Shared,
      (object 0 [("n", int 1), ("xs", array 1 [object 2 [("k", null)], int 0])]).assign
          [.field "xs", .field "k"] (int 1) = .ok a' ∧
        (object 0 [("xs", array 1 [object 2 [("k", null)], int 0]),
            ("n", double (.finite false 1023 0))]).assign
          [.field "xs", .field "k"] (double (.finite false 1023 0)) = .ok b' ∧
        a'.equal b' = true := by
  have hitem : (object 2 [("k", null)] : Shared).Distinct :=
    distinct_object_iff.2 ⟨by decide, List.forall_mem_singleton.2 (distinct_of_mark?_eq_none rfl)⟩
  have hitems : (array 1 [object 2 [("k", null)], int 0] : Shared).Distinct := by
    refine distinct_array_iff.2 (List.forall_mem_cons.2 ⟨hitem, ?_⟩)
    exact List.forall_mem_singleton.2 (distinct_of_mark?_eq_none rfl)
  have ha : (object 0 [("n", int 1),
      ("xs", array 1 [object 2 [("k", null)], int 0])] : Shared).Distinct := by
    refine distinct_object_iff.2 ⟨by decide, List.forall_mem_cons.2 ⟨?_, ?_⟩⟩
    · exact distinct_of_mark?_eq_none rfl
    · exact List.forall_mem_singleton.2 hitems
  refine ((equal_answers ha (by decide)).2 (unshared_of_nodup (by decide))
    (unshared_of_nodup (by decide)) (distinct_of_mark?_eq_none rfl) (by decide)
    [.field "xs"] (.field "k")).resolve_right ?_
  rintro ⟨s, -, -, hs, -⟩
  cases hs

end JsonPaths.Value
