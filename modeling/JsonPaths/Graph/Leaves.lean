/-
JsonPaths/Graph/Leaves.lean

The leaves of a value graph and the comparison of its nodes.

Leaves and their path text are those of value trees, with everything that is
neither an array nor an object with something in it a leaf.  A key that is a
whole number or a truth value stands in brackets, as the place of an item does;
any other key stands after a dot.  A path has no text if a whole number in one of its
keys has too many digits.  Nodes are equal as JSON values are, and a
thing of a kind that JSON does not have cannot be compared.
-/
import JsonPaths.Graph.Basic
import JsonPaths.Value.Leaves

namespace JsonPaths.Graph

/-! ### Leaves -/

/-- The text of a path, one key longer; the text of the root is empty. -/
def extend (parent : String) : Key → Option String
  | .text s => some (Leaves.extend parent (.field s))
  | k@(.int _) | k@(.bool _) => do
    return (if parent = "" then "." else parent) ++ "[" ++ String.ofList (← k.shown) ++ "]"
  | k => do return parent ++ "." ++ String.ofList (← k.shown)

/-- The leaves below a node, which has a path and is reached through the
containers `above`, in order.  A container that is met inside itself has none.
The fuel bounds the depth. -/
def leavesFrom (g : Graph) :
    (fuel : Nat) → (above : List Nat) → String → Nat → Option (List (String × Nat))
  | 0, _, _, _ => some []
  | fuel + 1, above, path, i =>
    match g.node i with
    | .array items@(_ :: _) =>
      if i ∈ above then some []
      else do
        let places := items.mapIdx fun k j => (Leaves.extend path (.index k), j)
        let leaves ← places.mapM fun p => leavesFrom g fuel (i :: above) p.1 p.2
        return leaves.flatten
    | .object members@(_ :: _) =>
      if i ∈ above then some []
      else do
        let leaves ← members.mapM fun m => do
          leavesFrom g fuel (i :: above) (← extend path m.1) m.2
        return leaves.flatten
    | _ => some [(Leaves.name path, i)]

/-- The leaves below a node by their paths.  There are none if a path has no text. -/
def leafIndex (g : Graph) (i : Nat) : Option (List (String × Nat)) :=
  (g.leavesFrom g.depth [] "" i).map Assoc.ofList

/-! ### Equality -/

/-- Whether two nodes are equal, or the first node met that is no JSON value, the
left one being looked at first.  The fuel bounds the depth. -/
def equalFrom (g : Graph) : (fuel : Nat) → Nat → Nat → Except Nat Bool
  | 0, _, _ => .ok false
  | fuel + 1, i, j =>
    match (g.node i).kind, (g.node j).kind with
    | .error _, _ => .error i
    | _, .error _ => .error j
    | .ok _, .ok _ =>
      match g.node i, g.node j with
      | .null, .null => .ok true
      | .bool a, .bool b => .ok (a == b)
      | .int a, .int b => .ok (a == b)
      | .int a, .double y => .ok (y.equalsInt a)
      | .double x, .int b => .ok (x.equalsInt b)
      | .double x, .double y => .ok (x.equals y)
      | .string a, .string b => .ok (a == b)
      | .array as, .array bs =>
        if as.length = bs.length then
          (as.zip bs).allM fun p => equalFrom g fuel p.1 p.2
        else .ok false
      | .object as, .object bs =>
        if Assoc.sameKeys as bs then
          as.allM fun m =>
            match bs.lookup m.1 with
            | some k => equalFrom g fuel m.2 k
            | none => .ok false
        else .ok false
      | _, _ => .ok false

/-- Whether two nodes are equal.  A pair of nodes that is met again below itself
would never be told apart, so the number of pairs bounds the depth. -/
def equal (g : Graph) (i j : Nat) : Except Nat Bool :=
  g.equalFrom (g.nodes.size * g.nodes.size + 1) i j

/-- The kind of JSON value at a node, or the node if it is none. -/
def kindAt (g : Graph) (i : Nat) : Except Nat Kind :=
  match (g.node i).kind with
  | .ok k => .ok k
  | .error _ => .error i

/-- The paths of an index whose leaf equals a node, in order. -/
def find (g : Graph) (target : Nat) : List (String × Nat) → Except Nat (List String)
  | [] => .ok []
  | (path, i) :: rest => do
    let found ← g.equal i target
    let paths ← g.find target rest
    return if found then path :: paths else paths

end JsonPaths.Graph
