/-
JsonPaths/Path/Reach.lean

What a path reaches in a value tree.

A field step that meets an array is taken in every item, and what it finds is
gathered into a list, one list within another for arrays within arrays; items
without the field are left out, and a list without hits is no hit.  A hit keeps
the object and the name it was read from, so that a gathered list can be
indexed, flattened again and written through.
-/
import JsonPaths.Path.Step
import JsonPaths.Value.Basic

namespace JsonPaths

variable {μ ν : Type}

/-! ### Hits and places -/

/-- What a field step finds in one value: the value of a member, or the hits in
the items of an array.  Objects are known by a `μ`, values by a `ν`. -/
inductive Hit (μ ν : Type) where
  | member (owner : μ) (name : String) (value : ν)
  | gathered (hits : List (Hit μ ν))

/-- A place that a path reaches: a value or a gathered list. -/
inductive Place (μ ν : Type) where
  | value (v : ν)
  | hits (hs : List (Hit μ ν))

namespace Hit

/-- A list of hits as one hit; no hits are none. -/
def gather : List (Hit μ ν) → Option (Hit μ ν)
  | [] => none
  | hs => some (.gathered hs)

/-- A hit as a place. -/
def place : Hit μ ν → Place μ ν
  | .member _ _ v => .value v
  | .gathered hs => .hits hs

end Hit

/-! ### Hits of a field -/

mutual

/-- The hit of a field in a value. -/
def Value.pick (name : String) : Value μ → Option (Hit μ (Value μ))
  | .object m members => (members.lookup name).map (.member m name)
  | .array _ items => Hit.gather (Value.pickItems name items)
  | _ => none

/-- The hits of a field in the items of an array, in order. -/
def Value.pickItems (name : String) : List (Value μ) → List (Hit μ (Value μ))
  | [] => []
  | v :: vs => (v.pick name).toList ++ Value.pickItems name vs

end

mutual

/-- The hit of a field in a hit. -/
def Hit.pick (name : String) : Hit μ (Value μ) → Option (Hit μ (Value μ))
  | .member _ _ v => v.pick name
  | .gathered hs => Hit.gather (Hit.pickAll name hs)

/-- The hits of a field in a list of hits, in order. -/
def Hit.pickAll (name : String) : List (Hit μ (Value μ)) → List (Hit μ (Value μ))
  | [] => []
  | h :: hs => (h.pick name).toList ++ Hit.pickAll name hs

end

namespace Place

/-! ### Steps -/

/-- The place that a field step leads to, if there is one. -/
def field (name : String) : Place μ (Value μ) → Option (Place μ (Value μ))
  | .value v => (v.pick name).map Hit.place
  | .hits hs => (Hit.gather (Hit.pickAll name hs)).map Hit.place

/-- The place that an index step leads to, if there is one. -/
def index (i : Nat) : Place μ (Value μ) → Option (Place μ (Value μ))
  | .value (.array _ items) => items[i]?.map .value
  | .value _ => none
  | .hits hs => hs[i]?.map Hit.place

/-- The place that a step leads to, if there is one. -/
def step : Step → Place μ (Value μ) → Option (Place μ (Value μ))
  | .field name => field name
  | .index i => index i

end Place

/-! ### Walking -/

/-- Why a path does not lead anywhere, or cannot be assigned: the step after the
first `done` ones does not resolve, there is no step at all, or nothing can be
written at the last step. -/
inductive Obstacle where
  | unresolved (done : Nat)
  | noStep
  | noSlot
  deriving DecidableEq, Repr

/-- Takes the steps one after the other; `done` of them were taken before. -/
def Place.walk (p : Place μ (Value μ)) (done : Nat) :
    List Step → Except Obstacle (Place μ (Value μ))
  | [] => .ok p
  | s :: ss =>
    match p.step s with
    | none => .error (.unresolved done)
    | some q => q.walk (done + 1) ss

/-- The place that a path leads to from the root. -/
def Value.reach (root : Value μ) (steps : List Step) :
    Except Obstacle (Place μ (Value μ)) :=
  (Place.value root).walk 0 steps

/-! ### The value at a place -/

mutual

/-- A hit as a value. -/
def Hit.plain : Hit μ (Value μ) → Json
  | .member _ _ v => v.erase
  | .gathered hs => .array () (Hit.plainAll hs)

/-- Hits as values. -/
def Hit.plainAll : List (Hit μ (Value μ)) → List Json
  | [] => []
  | h :: hs => h.plain :: Hit.plainAll hs

end

/-- What stands at a place: a gathered list is an array of its hits. -/
def Place.plain : Place μ (Value μ) → Json
  | .value v => v.erase
  | .hits hs => .array () (Hit.plainAll hs)

/-- The value that a path leads to. -/
def Value.query (root : Value μ) (steps : List Step) : Except Obstacle Json :=
  (root.reach steps).map Place.plain

end JsonPaths
