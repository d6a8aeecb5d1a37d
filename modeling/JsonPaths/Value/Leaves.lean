/-
JsonPaths/Value/Leaves.lean

The leaves of a value and their paths.

A leaf is a scalar, an empty array or an empty object.  `leafIndex` maps the
path text of every leaf to the leaf, in the order of the text of the value; it
works off a list of values still to be visited, with their paths.  `find` lists
the paths of an index whose leaf equals a value.
-/
import JsonPaths.Path.Step
import JsonPaths.Value.Equal

namespace JsonPaths

variable {μ ν : Type}

namespace Value

/-! ### Children -/

/-- The members or items of a value with the steps that lead to them. -/
def children : Value μ → List (Step × Value μ)
  | .array _ items => items.mapIdx fun i v => (.index i, v)
  | .object _ members => members.map fun p => (.field p.1, p.2)
  | _ => []

mutual

/-- The number of nodes of a tree. -/
def size : Value μ → Nat
  | .array _ items => sizeItems items + 1
  | .object _ members => sizeMembers members + 1
  | _ => 1

/-- The number of nodes of the items of an array. -/
def sizeItems : List (Value μ) → Nat
  | [] => 0
  | v :: vs => v.size + sizeItems vs

/-- The number of nodes of the members of an object. -/
def sizeMembers : List (String × Value μ) → Nat
  | [] => 0
  | (_, v) :: ms => v.size + sizeMembers ms

end

/-- The number of nodes of the trees in a list of pairs. -/
def sizeAll {α : Type} : List (α × Value μ) → Nat
  | [] => 0
  | p :: l => p.2.size + sizeAll l

section SizeAll

variable {α β : Type}

theorem sizeAll_append (l l' : List (α × Value μ)) :
    sizeAll (l ++ l') = sizeAll l + sizeAll l' := by
  induction l with
  | nil => exact (Nat.zero_add _).symm
  | cons p l ih => rw [List.cons_append, sizeAll, sizeAll, ih, Nat.add_assoc]

theorem sizeAll_map (f : α → β) (l : List (α × Value μ)) :
    sizeAll (l.map fun p => (f p.1, p.2)) = sizeAll l := by
  induction l with
  | nil => rfl
  | cons p l ih => exact congrArg (p.2.size + ·) ih

theorem sizeAll_mapIdx (f : Nat → α) (l : List (Value μ)) :
    sizeAll (l.mapIdx fun i v => (f i, v)) = sizeItems l := by
  induction l generalizing f with
  | nil => rfl
  | cons v vs ih =>
    rw [List.mapIdx_cons]
    exact congrArg (v.size + ·) (ih fun i => f (i + 1))

theorem sizeAll_members (l : List (String × Value μ)) : sizeAll l = sizeMembers l := by
  induction l with
  | nil => rfl
  | cons p ms ih => exact congrArg (p.2.size + ·) ih

end SizeAll

theorem sizeAll_children_lt (v : Value μ) : sizeAll v.children < v.size := by
  cases v with
  | array m items =>
    rw [children, sizeAll_mapIdx]
    exact Nat.lt_succ_self _
  | object m ms =>
    rw [children, sizeAll_map, sizeAll_members]
    exact Nat.lt_succ_self _
  | _ => exact Nat.one_pos

end Value

/-! ### The leaf index -/

/-- Leaves by their path text. -/
abbrev LeafIndex (μ : Type) := List (String × Value μ)

namespace Leaves

/-- The text of a path, one step longer; the text of the root is empty. -/
def extend (parent : String) : Step → String
  | .field name => parent ++ "." ++ name
  | .index i => (if parent = "" then "." else parent) ++ (Step.index i).render

/-- The text of a leaf, which is a dot for the root. -/
def name (path : String) : String := if path = "" then "." else path

/-- Visits the values of `pending` with their paths, one after the other, and
enters the leaves that are found into `index`. -/
def collect (pending : List (String × Value μ)) (index : LeafIndex μ) : LeafIndex μ :=
  match pending with
  | [] => index
  | (path, v) :: rest =>
    if v.children.isEmpty then collect rest (Assoc.put (name path) v index)
    else collect (v.children.map (fun c => (extend path c.1, c.2)) ++ rest) index
termination_by Value.sizeAll pending
decreasing_by
  · have hlt := Value.sizeAll_children_lt v
    simp only [Value.sizeAll]
    omega
  · have hlt := Value.sizeAll_children_lt v
    simp only [Value.sizeAll_append, Value.sizeAll_map, Value.sizeAll]
    omega

end Leaves

/-- The leaves of a value by their paths, in order. -/
def Value.leafIndex (v : Value μ) : LeafIndex μ := Leaves.collect [("", v)] []

/-- The paths of an index whose leaf equals `target`, in order. -/
def LeafIndex.find (index : LeafIndex μ) (target : Value ν) : List String :=
  (index.filter fun p => p.2.equal target).map (·.1)

end JsonPaths
