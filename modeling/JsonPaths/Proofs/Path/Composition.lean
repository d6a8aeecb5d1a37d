/-
JsonPaths/Proofs/Path/Composition.lean

Reading a path in two parts.

On the way along a path, gathered lists keep the objects that their hits were read from.
What is read at the end shows nothing of them: it is a plain JSON value.  But a step finds
the same in the plain value of a place as at the place (`Place.map_plain_step`), so what a
walk finds depends on the plain value of where it starts (`Place.map_plain_walk`), and the
rest of a path can be read in what the first part of it has read (`Value.query_append_eq_ok`).

A path that leads nowhere has exactly one step that does not resolve after all before it
did, and its error names this one (`Value.FailsAt`).  The main result is
`reading_composes`.
-/
import JsonPaths.Error
import JsonPaths.Proofs.Path.Assignable
import JsonPaths.Proofs.Path.Effect
import JsonPaths.Proofs.Path.Relabel

namespace JsonPaths

variable {μ ν : Type}

/-! ### Plain values of hits -/

/-- What is found in the items of an array, as an array, if anything is found. -/
def Json.gather : List Json → Option Json
  | [] => none
  | vs => some (.array () vs)

namespace Hit

theorem map_plain_gather (hs : List (Hit μ (Value μ))) :
    (gather hs).map plain = Json.gather (hs.map plain) := by
  cases hs with
  | nil => rfl
  | cons h hs => exact congrArg some (plain_gathered (h :: hs))

theorem plain_place (h : Hit μ (Value μ)) : h.place.plain = h.plain := by
  cases h with
  | member m name v => rfl
  | gathered hs => rfl

end Hit

theorem Value.map_plain_pick_array (name : String) (m : μ) (items : List (Value μ)) :
    ((array m items).pick name).map Hit.plain =
      Json.gather (items.filterMap fun v => (v.pick name).map Hit.plain) := by
  rw [pick_array, Hit.map_plain_gather, List.map_filterMap]

/-- A field finds the same in a value without its marks. -/
theorem Value.map_plain_pick_erase (name : String) (v : Value μ) :
    (v.erase.pick name).map Hit.plain = (v.pick name).map Hit.plain := by
  rw [erase_eq_relabel, pick_relabel, Option.map_map]
  exact Option.map_congr fun h _ => h.plain_relabel _

/-- A field finds the same in a hit and in its plain value. -/
theorem Hit.map_plain_pick (name : String) (h : Hit μ (Value μ)) :
    (h.plain.pick name).map plain = (h.pick name).map plain := by
  induction h using Hit.ind with
  | member m n v => exact Value.map_plain_pick_erase name v
  | gathered hs ih =>
    rw [plain_gathered, Value.map_plain_pick_array, List.filterMap_map, pick_gathered,
      map_plain_gather, List.map_filterMap]
    exact congrArg Json.gather (List.filterMap_congr ih)

/-! ### Plain values of places -/

namespace Place

theorem map_plain_step_field (name : String) (v : Value μ) :
    ((value v).step (.field name)).map plain = (v.pick name).map Hit.plain := by
  rw [step_value_field, Option.map_map]
  exact Option.map_congr fun h _ => h.plain_place

theorem map_plain_step_index (i : Nat) (m : μ) (items : List (Value μ)) :
    ((value (.array m items)).step (.index i)).map plain = items[i]?.map Value.erase := by
  rw [step_array_index, Option.map_map]
  rfl

/-- **A step finds the same at a place and in the plain value of it.** -/
theorem map_plain_step (s : Step) (p : Place μ (Value μ)) :
    ((value p.plain).step s).map plain = (p.step s).map plain := by
  cases s with
  | field name =>
    rw [map_plain_step_field]
    cases p with
    | value v =>
      rw [map_plain_step_field]
      exact Value.map_plain_pick_erase name v
    | hits hs =>
      rw [step_hits_field, Option.map_map]
      refine (Hit.map_plain_pick name (.gathered hs)).trans ?_
      exact Option.map_congr fun h _ => h.plain_place.symm
  | index i =>
    cases p with
    | value v =>
      cases v with
      | array m items =>
        show ((value (Value.array m items).erase).step (.index i)).map plain = _
        rw [Value.erase_array, map_plain_step_index, map_plain_step_index, List.getElem?_map,
          Option.map_map]
        exact Option.map_congr fun v _ => Value.erase_json v.erase
      | _ => rfl
    | hits hs =>
      show ((value (Hit.gathered hs).plain).step (.index i)).map plain = _
      rw [Hit.plain_gathered, map_plain_step_index, step_hits_index, List.getElem?_map,
        Option.map_map, Option.map_map]
      refine Option.map_congr fun h _ => ?_
      show h.plain.erase = h.place.plain
      rw [Value.erase_json, Hit.plain_place]

/-- What a walk finds depends on the plain value of where it starts. -/
theorem map_plain_walk {p : Place μ (Value μ)} {q : Place ν (Value ν)}
    (h : p.plain = q.plain) (n : Nat) (steps : List Step) :
    (p.walk n steps).map plain = (q.walk n steps).map plain := by
  induction steps generalizing p q n with
  | nil => exact congrArg Except.ok h
  | cons s ss ih =>
    have hstep : (p.step s).map plain = (q.step s).map plain := by
      rw [← map_plain_step s p, h, map_plain_step]
    rw [walk_cons, walk_cons]
    -- either both step somewhere, to one plain value, or neither does
    cases hp : p.step s with
    | none =>
      rw [hp, Option.map_none, eq_comm, Option.map_eq_none_iff] at hstep
      rw [hstep]
      rfl
    | some p' =>
      rw [hp, Option.map_some, eq_comm, Option.map_eq_some_iff] at hstep
      obtain ⟨q', hq, hplain⟩ := hstep
      rw [hq]
      exact ih hplain.symm (n + 1)

/-- Where a walk stops, the steps before one lead to a place where this one does not
resolve. -/
theorem exists_stop_of_walk {p : Place μ (Value μ)} {n : Nat} {steps : List Step}
    {o : Obstacle} (h : p.walk n steps = .error o) :
    ∃ k s q, o = .unresolved (n + k) ∧ steps[k]? = some s ∧
      p.walk n (steps.take k) = .ok q ∧ q.step s = none := by
  induction steps generalizing p n with
  | nil => cases h
  | cons s ss ih =>
    rw [walk_cons] at h
    cases hs : p.step s with
    | none =>
      rw [hs] at h
      exact ⟨0, s, p, (Except.error.inj h).symm, rfl, rfl, hs⟩
    | some p' =>
      rw [hs] at h
      obtain ⟨k, s', q, rfl, hk, hw, hq⟩ := ih h
      refine ⟨k + 1, s', q, by rw [Nat.add_right_comm, Nat.add_assoc], hk, ?_, hq⟩
      rw [List.take_succ_cons]
      exact walk_cons_eq_ok.2 ⟨p', hs, hw⟩

/-- Reading in the plain value of a place is walking on from it. -/
theorem query_plain (p : Place μ (Value μ)) (steps : List Step) :
    p.plain.query steps = (p.walk 0 steps).map plain :=
  map_plain_walk (p := .value p.plain) (Value.erase_json p.plain) 0 steps

end Place

/-! ### Two parts of a path -/

namespace Value

variable {root : Value μ} {s t steps : List Step} {j : Json}

/-- **A path is read in two parts**, the second in what the first has read. -/
theorem query_append_eq_ok :
    root.query (s ++ t) = .ok j ↔ ∃ m, root.query s = .ok m ∧ m.query t = .ok j := by
  constructor
  · intro h
    obtain ⟨r, hr, rfl⟩ := query_eq_ok.1 h
    obtain ⟨p, hp, hw⟩ := reach_append_eq_ok.1 hr
    -- the walk through `p` is a walk from the plain value of it
    refine ⟨p.plain, query_eq_ok.2 ⟨p, hp, rfl⟩, ?_⟩
    rw [Place.query_plain, hw]
    rfl
  · rintro ⟨m, hm, hj⟩
    obtain ⟨p, hp, rfl⟩ := query_eq_ok.1 hm
    rw [Place.query_plain] at hj
    obtain ⟨r, hw, rfl⟩ := Except.map_eq_ok.1 hj
    exact query_eq_ok.2 ⟨r, reach_append_eq_ok.2 ⟨p, hp, hw⟩, rfl⟩

theorem Resolves.of_append (h : root.Resolves (s ++ t)) : root.Resolves s := by
  obtain ⟨j, hj⟩ := h
  obtain ⟨m, hm, -⟩ := query_append_eq_ok.1 hj
  exact ⟨m, hm⟩

/-- Where a path leads somewhere, so does every shorter one that it starts with. -/
theorem Resolves.of_take_le {k n : Nat} (h : root.Resolves (steps.take n)) (hkn : k ≤ n) :
    root.Resolves (steps.take k) := by
  have hsplit := List.take_append_drop k (steps.take n)
  rw [List.take_take, Nat.min_eq_left hkn] at hsplit
  rw [← hsplit] at h
  exact h.of_append

/-! ### The step that fails -/

/-- `root.FailsAt steps k step`: the step after the first `k` ones does not resolve where
these lead. -/
structure FailsAt (root : Value μ) (steps : List Step) (k : Nat) (step : Step) : Prop where
  step_eq : steps[k]? = some step
  before : root.Resolves (steps.take k)
  fails : ¬root.Resolves (steps.take (k + 1))

theorem FailsAt.le {k n : Nat} {step step' : Step} (h : root.FailsAt steps k step)
    (h' : root.FailsAt steps n step') : n ≤ k := by
  by_contra hlt
  exact h.fails (h'.before.of_take_le (Nat.lt_of_not_le hlt))

/-- A path fails at one step at most. -/
theorem FailsAt.unique {k n : Nat} {step step' : Step} (h : root.FailsAt steps k step)
    (h' : root.FailsAt steps n step') : n = k ∧ step' = step := by
  obtain rfl := Nat.le_antisymm (h.le h') (h'.le h)
  exact ⟨rfl, Option.some.inj (h'.step_eq.symm.trans h.step_eq)⟩

/-- An obstacle on a path is the step that fails. -/
theorem failsAt_of_query {o : Obstacle} (h : root.query steps = .error o) :
    ∃ k step, o = .unresolved k ∧ root.FailsAt steps k step := by
  obtain ⟨k, step, q, rfl, hk, hw, hq⟩ :=
    Place.exists_stop_of_walk (Except.map_eq_error.1 h)
  refine ⟨k, step, by rw [Nat.zero_add], hk, resolves_iff.2 ⟨q, hw⟩, ?_⟩
  rw [List.take_add_one, hk, Option.toList_some, resolves_concat hw, hq]
  exact Bool.false_ne_true

end Value

/-! ### The law -/

theorem Setback.reason_unresolved {steps : List Step} {k : Nat} {step : Step}
    (h : steps[k]? = some step) :
    (unresolved steps k).reason = s!"{Text.showText step.render} does not resolve under {
      Text.showText (Path.render (steps.take k))}" := by
  have hstep : (steps[k]?.map Step.chars).getD [] = step.chars := by rw [h]; rfl
  rw [Text.showText, Text.showText, Step.render, Path.render, String.toList_ofList,
    String.toList_ofList, ← hstep]
  rfl

namespace Value

/-- **Reading goes on from what was read, and names the step that fails.**  A path in two
parts leads to a value exactly if the first part does, and the second does in what the first
has read.  If a path leads nowhere, the error carries the path, and it names the one step
that does not resolve after the steps before it did, and these. -/
theorem reading_composes (root : Value μ) :
    (∀ (s t : List Step) (j : Json),
      root.query (s ++ t) = .ok j ↔ ∃ m, root.query s = .ok m ∧ m.query t = .ok j) ∧
    ∀ steps : List Step, ¬root.Resolves steps →
      ∃ k step,
        (root.query steps).mapError (Error.ofObstacle steps) =
          .error (.setback (.unresolved steps k)) ∧
        root.FailsAt steps k step ∧
        (∀ k' step', root.FailsAt steps k' step' → k' = k ∧ step' = step) ∧
        (Setback.unresolved steps k).path = Path.render steps ∧
        (Setback.unresolved steps k).reason =
          s!"{Text.showText step.render} does not resolve under {
            Text.showText (Path.render (steps.take k))}" := by
  refine ⟨fun s t j => query_append_eq_ok, fun steps h => ?_⟩
  cases hq : root.query steps with
  | ok j => exact absurd ⟨j, hq⟩ h
  | error o =>
    obtain ⟨k, step, rfl, hfails⟩ := failsAt_of_query hq
    exact ⟨k, step, rfl, hfails, fun k' step' h' => hfails.unique h', rfl,
      Setback.reason_unresolved hfails.step_eq⟩

/-- An array of two arrays, where a field gathers a list of two lists. -/
def layered : Json :=
  .array () [.array () [.object () [("a", .object () [("b", .int 1)])]],
    .array () [.object () [("a", .object () [("b", .int 2)])], .null]]

theorem reading_composes_layered :
    (∃ m, layered.query [.field "a"] = .ok m ∧
      m.query [.field "b", .index 1, .index 0] = .ok (.int 2)) ∧
    ¬layered.Resolves [.field "a", .index 2] ∧
    ∃ k step, layered.FailsAt [.field "a", .index 2] k step ∧
      (Setback.unresolved [.field "a", .index 2] k).path =
        Path.render [.field "a", .index 2] := by
  have hfails : ¬layered.Resolves [.field "a", .index 2] := by
    rintro ⟨j, hj⟩
    cases hj
  obtain ⟨k, step, -, hstep, -, hpath, -⟩ := (reading_composes layered).2 _ hfails
  exact ⟨((reading_composes layered).1 [.field "a"] _ _).1 rfl, hfails, k, step, hstep, hpath⟩

end Value

end JsonPaths
