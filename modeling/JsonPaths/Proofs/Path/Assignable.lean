/-
JsonPaths/Proofs/Path/Assignable.lean

Which paths can be assigned.

Reading and assigning take the steps before the last one alike, and part at the last
step: reading takes it, assigning looks for the slots that it addresses.  Slots of a
field are looked for by a recursion of their own, but it finds some exactly where
reading finds a hit (`Value.slots_eq_nil`, `Hit.slots_eq_nil`).  So a path can be
assigned where it can be read, with two exceptions: an object takes a member that it
lacks, and a list that was gathered from an inner array has no slot.  `Value.Refused`
says when a path cannot be assigned in terms of reading alone, and
`assign_eq_error_iff` that it says so exactly.
-/
import JsonPaths.Proofs.Except
import JsonPaths.Proofs.Path.Found

namespace JsonPaths

variable {μ : Type}

/-! ### Slots and hits -/

/-- What is found in a value or a list of hits is not empty. -/
theorem Value.exists_holds_of_pick {name : String} {v : Value μ} {h : Hit μ (Value μ)}
    (hp : v.pick name = some h) : ∃ m n w, h.Holds m n w := by
  induction v using Value.ind generalizing h with
  | null | bool | int | double | string => cases hp
  | array m items ih =>
    rw [pick_array, Hit.gather_eq_some] at hp
    obtain ⟨hne, rfl⟩ := hp
    obtain ⟨g, hg⟩ := List.exists_mem_of_ne_nil _ hne
    obtain ⟨x, hx, hpx⟩ := List.mem_filterMap.1 hg
    obtain ⟨m', n, w, hh⟩ := ih x hx hpx
    exact ⟨m', n, w, .gathered hg hh⟩
  | object m ms _ =>
    rw [pick_object, Option.map_eq_some_iff] at hp
    obtain ⟨w, -, rfl⟩ := hp
    exact ⟨m, name, w, .member m name w⟩

theorem Hit.exists_holds_of_pick {name : String} {h h' : Hit μ (Value μ)}
    (hp : h.pick name = some h') : ∃ m n w, h'.Holds m n w := by
  induction h using Hit.ind generalizing h' with
  | member m n v => exact Value.exists_holds_of_pick hp
  | gathered hs ih =>
    rw [pick_gathered, gather_eq_some] at hp
    obtain ⟨hne, rfl⟩ := hp
    obtain ⟨g, hg⟩ := List.exists_mem_of_ne_nil _ hne
    obtain ⟨x, hx, hpx⟩ := List.mem_filterMap.1 hg
    obtain ⟨m, n, w, hh⟩ := ih x hx hpx
    exact ⟨m, n, w, .gathered hg hh⟩

/-- A value has slots for a field exactly if the field is found in it. -/
theorem Value.slots_eq_nil {name : String} {v : Value μ} :
    v.slots name = [] ↔ v.pick name = none := by
  constructor
  · intro hs
    refine Option.eq_none_iff_forall_ne_some.2 fun h hp => ?_
    obtain ⟨m, n, w, hh⟩ := exists_holds_of_pick hp
    have hmem := mem_slots_of_pick hp hh
    rw [hs] at hmem
    exact List.not_mem_nil hmem
  · exact pick_eq_none

theorem Hit.slots_eq_nil {name : String} {h : Hit μ (Value μ)} :
    h.slots name = [] ↔ h.pick name = none := by
  constructor
  · intro hs
    refine Option.eq_none_iff_forall_ne_some.2 fun h' hp => ?_
    obtain ⟨m, n, w, hh⟩ := exists_holds_of_pick hp
    have hmem := mem_slots_of_pick hp hh
    rw [hs] at hmem
    exact List.not_mem_nil hmem
  · exact pick_eq_none

namespace Place

/-- A last field step has no slot where it leads nowhere, unless it adds a member. -/
theorem slots_field_eq_nil {name : String} {p : Place μ (Value μ)} :
    p.slots (.field name) = [] ↔ p.plain.kind ≠ .object ∧ p.step (.field name) = none := by
  cases p with
  | value v =>
    rw [step_value_field, Option.map_eq_none_iff]
    cases v with
    | object m ms => exact iff_of_false nofun fun h => h.1 rfl
    | array m items =>
      refine Value.slots_eq_nil.trans (iff_and_self.2 fun _ => ?_)
      exact nofun
    | _ => exact iff_of_true rfl ⟨nofun, rfl⟩
  | hits hs =>
    rw [step_hits_field, Option.map_eq_none_iff]
    refine (Hit.slots_eq_nil (h := .gathered hs)).trans (iff_and_self.2 fun _ => ?_)
    exact nofun

/-- A last index step has no slot where it leads nowhere or to a gathered list. -/
theorem slots_index_eq_nil {i : Nat} {p : Place μ (Value μ)} :
    p.slots (.index i) = [] ↔
      p.step (.index i) = none ∨ ∃ hs, p.step (.index i) = some (.hits hs) := by
  cases p with
  | value v =>
    cases v with
    | array m items =>
      rw [step_array_index]
      show (if i < items.length then [(⟨m, .index i⟩ : Slot μ)] else []) = [] ↔ _
      by_cases hi : i < items.length
      · simp [hi]
      · simp [hi]
    | _ => exact iff_of_true rfl (.inl rfl)
  | hits hs =>
    rw [step_hits_index]
    show (hs[i]?.bind Hit.source).toList = [] ↔ _
    cases hs[i]? with
    | none => simp
    | some h => cases h <;> simp [Hit.source, Hit.place]

/-- A field leads nowhere from what is no container. -/
theorem step_field_of_kind {name : String} {p : Place μ (Value μ)}
    (hobject : p.plain.kind ≠ .object) (harray : p.plain.kind ≠ .array) :
    p.step (.field name) = none := by
  cases p with
  | value v =>
    cases v with
    | object m ms => exact absurd rfl hobject
    | array m items => exact absurd rfl harray
    | _ => rfl
  | hits hs => exact absurd rfl harray

end Place

/-! ### Paths that cannot be assigned -/

namespace Value

/-- A path leads to a value. -/
def Resolves (root : Value μ) (steps : List Step) : Prop := ∃ j, root.query steps = .ok j

/-- A path that cannot be assigned, by its steps before the last one and its last
one. -/
inductive Refused (root : Value μ) (init : List Step) : Step → Prop
  /-- The steps before the last one lead nowhere. -/
  | unresolved {last : Step} : ¬root.Resolves init → Refused root init last
  /-- A field is taken in a value that is no container. -/
  | noContainer {name : String} {j : Json} : root.query init = .ok j → j.kind ≠ .object →
      j.kind ≠ .array → Refused root init (.field name)
  /-- A field is taken in an array, stored or gathered, where nothing has it. -/
  | noHit {name : String} {j : Json} : root.query init = .ok j → j.kind = .array →
      ¬root.Resolves (init ++ [.field name]) → Refused root init (.field name)
  /-- An index leads nowhere. -/
  | noItem {i : Nat} : ¬root.Resolves (init ++ [.index i]) → Refused root init (.index i)
  /-- An index leads to a list that was gathered from an inner array. -/
  | gathered {i : Nat} {hs : List (Hit μ (Value μ))} :
      root.reach (init ++ [.index i]) = .ok (.hits hs) → Refused root init (.index i)

theorem query_eq_ok {root : Value μ} {steps : List Step} {j : Json} :
    root.query steps = .ok j ↔ ∃ p, root.reach steps = .ok p ∧ j = p.plain :=
  Except.map_eq_ok

theorem resolves_iff {root : Value μ} {steps : List Step} :
    root.Resolves steps ↔ ∃ p, root.reach steps = .ok p := by
  constructor
  · rintro ⟨j, hj⟩
    obtain ⟨p, hp, -⟩ := query_eq_ok.1 hj
    exact ⟨p, hp⟩
  · rintro ⟨p, hp⟩
    exact ⟨p.plain, query_eq_ok.2 ⟨p, hp, rfl⟩⟩

theorem reach_concat_eq_ok {root : Value μ} {init : List Step} {last : Step}
    {q : Place μ (Value μ)} :
    root.reach (init ++ [last]) = .ok q ↔
      ∃ p, root.reach init = .ok p ∧ p.step last = some q :=
  Place.walk_concat_eq_ok

theorem resolves_concat {root : Value μ} {init : List Step} {last : Step}
    {p : Place μ (Value μ)} (hp : root.reach init = .ok p) :
    root.Resolves (init ++ [last]) ↔ (p.step last).isSome := by
  simp [resolves_iff, reach_concat_eq_ok, hp, Option.isSome_iff_exists]

/-- The last step of a refused path has no slot where the others lead. -/
theorem Refused.slots_eq_nil {root : Value μ} {init : List Step} {last : Step}
    (h : root.Refused init last) {p : Place μ (Value μ)} (hp : root.reach init = .ok p) :
    p.slots last = [] := by
  have hj : root.query init = .ok p.plain := query_eq_ok.2 ⟨p, hp, rfl⟩
  cases h with
  | unresolved h => exact absurd ⟨_, hj⟩ h
  | noContainer hj' hobject harray =>
    obtain rfl := Except.ok.inj (hj.symm.trans hj')
    exact Place.slots_field_eq_nil.2 ⟨hobject, Place.step_field_of_kind hobject harray⟩
  | noHit hj' harray h =>
    obtain rfl := Except.ok.inj (hj.symm.trans hj')
    rw [resolves_concat hp, Option.not_isSome_iff_eq_none] at h
    refine Place.slots_field_eq_nil.2 ⟨?_, h⟩
    rw [harray]
    exact nofun
  | noItem h =>
    rw [resolves_concat hp, Option.not_isSome_iff_eq_none] at h
    exact Place.slots_index_eq_nil.2 (.inl h)
  | gathered h =>
    obtain ⟨p', hp', hs⟩ := reach_concat_eq_ok.1 h
    obtain rfl := Except.ok.inj (hp.symm.trans hp')
    exact Place.slots_index_eq_nil.2 (.inr ⟨_, hs⟩)

theorem refused_of_slots_eq_nil {root : Value μ} {init : List Step} {last : Step}
    {p : Place μ (Value μ)} (hp : root.reach init = .ok p) (h : p.slots last = []) :
    root.Refused init last := by
  have hj : root.query init = .ok p.plain := query_eq_ok.2 ⟨p, hp, rfl⟩
  cases last with
  | field name =>
    obtain ⟨hobject, hs⟩ := Place.slots_field_eq_nil.1 h
    by_cases harray : p.plain.kind = .array
    · refine .noHit hj harray ?_
      rw [resolves_concat hp, hs]
      exact nofun
    · exact .noContainer hj hobject harray
  | index i =>
    rcases Place.slots_index_eq_nil.1 h with hs | ⟨hs', hs⟩
    · refine .noItem ?_
      rw [resolves_concat hp, hs]
      exact nofun
    · exact .gathered (reach_concat_eq_ok.2 ⟨p, hp, hs⟩)

/-- A path is refused exactly if its last step has no slot where the others lead. -/
theorem refused_iff {root : Value μ} {init : List Step} {last : Step} :
    root.Refused init last ↔ ∀ p, root.reach init = .ok p → p.slots last = [] := by
  constructor
  · intro h p hp
    exact h.slots_eq_nil hp
  · intro h
    by_cases hr : root.Resolves init
    · obtain ⟨p, hp⟩ := resolves_iff.1 hr
      exact refused_of_slots_eq_nil hp (h p hp)
    · exact .unresolved hr

-- An index into what was gathered from an array of arrays is read, but not assigned.
example : (Value.array () [.array () [.object () [("a", .int 1)]]]).Refused
    [.field "a"] (.index 0) := .gathered rfl

/-- A path is assigned unless it is refused. -/
theorem target_eq_ok_iff {root : Value μ} {init : List Step} {last : Step} :
    (∃ slots, root.target (init ++ [last]) = .ok slots) ↔ ¬root.Refused init last := by
  rw [refused_iff]
  constructor
  · rintro ⟨slots, ht⟩ h
    obtain ⟨p, hp, rfl, hne⟩ := target_concat_eq_ok.1 ht
    exact hne (h p hp)
  · intro h
    simp only [not_forall] at h
    obtain ⟨p, hp, hne⟩ := h
    exact ⟨_, target_concat_eq_ok.2 ⟨p, hp, rfl, hne⟩⟩

/-- Where a path has steps, only a step that leads nowhere or has no slot stops its
assignment. -/
theorem target_eq_error {root : Value μ} {init : List Step} {last : Step} {o : Obstacle}
    (h : root.target (init ++ [last]) = .error o) : (∃ k, o = .unresolved k) ∨ o = .noSlot := by
  simp only [target, List.getLast?_append, List.getLast?_singleton, List.dropLast_concat,
    Option.some_or] at h
  cases hp : root.reach init with
  | error o' =>
    rw [hp] at h
    obtain rfl := Except.error.inj h
    exact .inl (Place.walk_eq_error hp)
  | ok p =>
    simp only [hp] at h
    split at h
    · exact .inr (Except.error.inj h).symm
    · cases h

end Value

end JsonPaths
