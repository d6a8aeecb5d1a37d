/-
JsonPaths/Unchecked.lean

Paths, leaves and comparison on values that have not been checked.

The operations are the same as on documents.  JSON values are taken as trees,
everything else as a graph.  A thing of a kind that JSON does not have is an
error in a place where its kind matters; where it is only passed on it is
written as the JSON it stands for, if it stands for any.  Answers are JSON texts.
-/
import JsonPaths.Error
import JsonPaths.Graph.Leaves

namespace JsonPaths.Unchecked

/-! ### Values at hand -/

/-- What an outline stands for. -/
def ofOutline (o : Outline) : Except Error Candidate := o.candidate.mapError Error.ofOutline

/-- A node for an outline, added to a graph. -/
def lay (o : Outline) (g : Graph) : Except Error (Nat × Graph) :=
  (o.lay g).mapError Error.ofOutline

/-- The text that a JSON value is written as. -/
def textOf (v : Json) : Except Error String := Error.orTooLong (Json.compactText v)

/-- The text that a node is written as. -/
def nodeText (g : Graph) (i : Nat) : Except Error String := do
  textOf (← (g.json i).mapError .ofUnwritable)

/-- The text that a candidate is written as. -/
def written : Candidate → Except Error String
  | .json v => textOf v
  | .graph g root => nodeText g root

/-! ### Paths -/

/-- The text of what a path leads to. -/
def query (doc : Candidate) (steps : List Step) : Except Error String :=
  match doc with
  | .json v => do textOf (← (v.query steps).mapError (.ofObstacle steps))
  | .graph g root => do
    let place ← (g.reach root steps).mapError (.ofStop g steps)
    textOf (← (g.placeJson place).mapError .ofUnwritable)

/-- The value after another one has been assigned at a path. -/
def assign (doc : Candidate) (steps : List Step) (new : Outline) :
    Except Error Candidate := do
  match doc, ← ofOutline new with
  | .json v, .json w =>
    let (v, next) := v.withMarks 0
    let v ← (v.assign steps (w.withMarks next).1).mapError (.ofObstacle steps)
    return .json v.erase
  | doc, _ =>
    let (root, g) := doc.toGraph
    let (i, g) ← lay new g
    let g ← (g.assign root steps i).mapError (.ofStop g steps)
    return .graph g root

/-! ### Leaves -/

/-- The leaves of a value with the texts they are written as. -/
def leaves : Candidate → Except Error (List (String × String))
  | .json v => v.leafIndex.mapM fun p => do return (p.1, ← textOf p.2)
  | .graph g root => do
    let index ← Error.orTooLong (g.leafIndex root)
    index.mapM fun p => do return (p.1, ← nodeText g p.2)

/-- The paths of an index whose leaf equals a node. -/
def findNode (g : Graph) (target : Nat) (index : List (String × Nat)) :
    Except Error (List String) :=
  (g.find target index).mapError (.ofForeign g)

/-- The paths of a leaf index of JSON values whose leaf equals a value. -/
def findIn (index : LeafIndex Unit) (target : Outline) : Except Error (List String) := do
  match ← ofOutline target with
  | .json v => return index.find v
  | .graph _ _ =>
    let (nodes, g) := Graph.empty.addJsonMembers index
    let (i, g) ← lay target g
    findNode g i (index.zipWith (fun p q => (p.1, q.2)) nodes)

/-- The paths of the leaves of a value that equal another one. -/
def find (doc : Candidate) (target : Outline) : Except Error (List String) :=
  match doc with
  | .json v => findIn v.leafIndex target
  | .graph g root => do
    let (i, g) ← lay target g
    findNode g i (← Error.orTooLong (g.leafIndex root))

/-! ### Comparison -/

/-- How two values compare: their kinds, and equality both ways round. -/
structure Comparison where
  left : Kind
  right : Kind
  equal : Bool
  reverse : Bool

/-- Compares two values. -/
def compare (a b : Outline) : Except Error Comparison := do
  let left ← ofOutline a
  match left, ← ofOutline b with
  | .json v, .json w => return ⟨v.kind, w.kind, v.equal w, w.equal v⟩
  | _, _ =>
    let (i, g) := left.toGraph
    let (j, g) ← lay b g
    return ⟨← (g.kindAt i).mapError (.ofForeign g), ← (g.kindAt j).mapError (.ofForeign g),
      ← (g.equal i j).mapError (.ofForeign g), ← (g.equal j i).mapError (.ofForeign g)⟩

end JsonPaths.Unchecked
