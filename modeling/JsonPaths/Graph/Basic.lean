/-
JsonPaths/Graph/Basic.lean

Graphs of values.

What a caller hands over as a JSON value is a node of a graph: a container may
occur at several places or inside itself, keys need not be text, and things may
stand in it that are not JSON.
-/
import JsonPaths.Graph.Key

namespace JsonPaths

/-! ### Nodes -/

/-- A node of a graph.  Items and values are given by the numbers of nodes.  A
`foreign` thing is of a kind that is not JSON: it comes with the name of its kind, the
text that shows it, if it can be shown, and the key it gives, if it may be one. -/
inductive Node where
  | null
  | bool (b : Bool)
  | int (n : Int)
  | double (x : Double)
  | string (s : String)
  | array (items : List Nat)
  | object (members : List (Key × Nat))
  | tuple (items : List Nat)
  | foreign (kind : String) (shown : Option String) (key : Option Key)
  deriving Inhabited

/-- The kind of JSON value that a node is, or the name of another kind. -/
def Node.kind : Node → Except String Kind
  | .null => .ok .null
  | .bool _ => .ok .boolean
  | .int _ | .double _ => .ok .number
  | .string _ => .ok .string
  | .array _ => .ok .array
  | .object _ => .ok .object
  | .tuple _ => .error "tuple"
  | .foreign kind _ _ => .error kind

/-- A graph of values: its nodes by their numbers. -/
structure Graph where
  nodes : Array Node
  deriving Inhabited

namespace Graph

/-- The graph without nodes. -/
def empty : Graph := ⟨#[]⟩

/-- The node with a given number.  The node of a number that is not in use is
null. -/
def node (g : Graph) (i : Nat) : Node := g.nodes[i]?.getD .null

/-- Adds a node, which gets the next number. -/
def add (g : Graph) (n : Node) : Nat × Graph := (g.nodes.size, ⟨g.nodes.push n⟩)

/-- Makes `n` the node of a number in use. -/
def put (g : Graph) (i : Nat) (n : Node) : Graph := ⟨g.nodes.setIfInBounds i n⟩

/-- A bound on the depth of a walk that meets no container inside itself: the
containers on one way down are different nodes. -/
def depth (g : Graph) : Nat := g.nodes.size + 1

/-! ### JSON values in a graph -/

mutual

/-- Adds the nodes of a JSON value. -/
def addJson (g : Graph) : Json → Nat × Graph
  | .null => g.add .null
  | .bool b => g.add (.bool b)
  | .int n => g.add (.int n)
  | .double x => g.add (.double x)
  | .string s => g.add (.string s)
  | .array _ items =>
    let (is, g) := addJsonItems g items
    g.add (.array is)
  | .object _ members =>
    let (ms, g) := addJsonMembers g members
    g.add (.object ms)

/-- Adds the nodes of the items of an array. -/
def addJsonItems (g : Graph) : List Json → List Nat × Graph
  | [] => ([], g)
  | v :: vs =>
    let (i, g) := addJson g v
    let (is, g) := addJsonItems g vs
    (i :: is, g)

/-- Adds the nodes of the members of an object. -/
def addJsonMembers (g : Graph) : List (String × Json) → List (Key × Nat) × Graph
  | [] => ([], g)
  | (k, v) :: ms =>
    let (i, g) := addJson g v
    let (is, g) := addJsonMembers g ms
    ((.text k, i) :: is, g)

end

end Graph

/-! ### Candidates -/

/-- What a caller hands over as a value: JSON, or a node of a graph that may be
something else. -/
inductive Candidate where
  | json (v : Json)
  | graph (g : Graph) (root : Nat)

namespace Candidate

/-- The candidate as a node of a graph. -/
def toGraph : Candidate → Nat × Graph
  | .json v => Graph.empty.addJson v
  | .graph g root => (root, g)

end Candidate

end JsonPaths
