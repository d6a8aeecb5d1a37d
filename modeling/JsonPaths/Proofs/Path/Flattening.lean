/-
JsonPaths/Proofs/Path/Flattening.lean

Fields of the items of an array.

A walk takes one field after the other, each in all that was found before.  Read from the
items, the same is each item with all the fields, one item after the other, and the two
orders can be exchanged:

    query (array es) fs  =  gather of (query e fs) over the items e of es

One field is taken so by definition, arrays in arrays included
(`toOption_query_array_field`), and a path is read in two parts
(`toOption_query_append`), so the law goes on from the fields before the last one to all of
them (`toOption_query_array_fields`).  The main result is `query_fields_of_array`.
-/
import JsonPaths.Proofs.Path.Composition

namespace JsonPaths

variable {μ : Type}

/-! ### What was read, without the obstacle -/

namespace Value

theorem toOption_query_append (root : Value μ) (s t : List Step) :
    (root.query (s ++ t)).toOption =
      (root.query s).toOption.bind fun j => (j.query t).toOption := by
  refine Option.ext fun j => ?_
  simp only [Option.bind_eq_some_iff, Except.toOption_eq_some]
  exact query_append_eq_ok

theorem toOption_query_field (v : Value μ) (name : String) :
    (v.query [.field name]).toOption = (v.pick name).map Hit.plain := by
  rw [← Place.map_plain_step_field, query, reach, Place.walk_cons]
  cases (Place.value v).step (.field name) with
  | none => rfl
  | some p => rfl

/-- A field of an array is gathered from the items that have it. -/
theorem toOption_query_array_field (m : μ) (items : List (Value μ)) (name : String) :
    ((array m items).query [.field name]).toOption =
      Json.gather (items.filterMap fun e => (e.query [.field name]).toOption) := by
  simp only [toOption_query_field, map_plain_pick_array]

end Value

/-! ### Exchanging the two orders -/

/-- A field of what was gathered is gathered from what has it. -/
theorem Json.gather_bind_query_field (vs : List Json) (name : String) :
    (gather vs).bind (fun j => (j.query [.field name]).toOption) =
      gather (vs.filterMap fun v => (v.query [.field name]).toOption) := by
  cases vs with
  | nil => rfl
  | cons v vs => exact Value.toOption_query_array_field () (v :: vs) name

namespace Value

theorem toOption_query_array_fields (m : μ) (items : List (Value μ)) (name : String)
    (names : List String) :
    ((array m items).query ((name :: names).map .field)).toOption =
      Json.gather (items.filterMap fun e =>
        (e.query ((name :: names).map .field)).toOption) := by
  -- the last field is taken in what the fields before it have gathered
  induction names using List.reverseRecOn with
  | nil => exact toOption_query_array_field m items name
  | append_singleton names last ih =>
    rw [← List.cons_append, List.map_append]
    simp only [toOption_query_append]
    rw [ih, ← List.filterMap_filterMap]
    exact Json.gather_bind_query_field _ last

end Value

/-! ### The law -/

theorem Json.gather_eq_some {vs : List Json} {j : Json} :
    gather vs = some j ↔ vs ≠ [] ∧ j = .array () vs := by
  cases vs with
  | nil => simp [gather]
  | cons v vs => simp [gather, eq_comm]

namespace Value

theorem filterMap_query_ne_nil {items : List (Value μ)} {steps : List Step} :
    (items.filterMap fun e => (e.query steps).toOption) ≠ [] ↔
      ∃ e ∈ items, e.Resolves steps := by
  rw [Ne, List.filterMap_eq_nil_iff]
  simp only [not_forall, ← ne_eq, Option.ne_none_iff_exists', Except.toOption_eq_some,
    Resolves, exists_prop]

/-- **Fields distribute over the items of an array.**  One or more fields lead somewhere in
an array exactly if they do in one of its items, whatever the items are; what is read is then
the array of what is read in each item where they do, in the order of the items. -/
theorem query_fields_of_array (m : μ) (items : List (Value μ)) (name : String)
    (names : List String) (j : Json) :
    (array m items).query ((name :: names).map .field) = .ok j ↔
      (∃ e ∈ items, e.Resolves ((name :: names).map .field)) ∧
        j = .array () (items.filterMap fun e =>
          (e.query ((name :: names).map .field)).toOption) := by
  rw [← Except.toOption_eq_some, toOption_query_array_fields, Json.gather_eq_some,
    filterMap_query_ne_nil]

-- An inner array is one item: what is gathered from it stands as an array, and an item where
-- the second field is missing is left out.
example : (Value.array () [.object () [("a", .object () [("b", .int 1)])],
    .object () [("a", .null)],
    .array () [.object () [("a", .object () [("b", .int 2)])]]]).query
    [.field "a", .field "b"] = .ok (.array () [.int 1, .array () [.int 2]]) := rfl

end Value

end JsonPaths
