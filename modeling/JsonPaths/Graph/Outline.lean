/-
JsonPaths/Graph/Outline.lean

Outlines: value graphs written as trees.

In an outline `up n` stands for an enclosing array or object, the nearest one
being number zero, and a named part stands for one node wherever its name is
used again.  `lay` adds the nodes of an outline to a graph.  It fails at the
first text that is not JSON and at the first key that holds a container.
-/
import JsonPaths.Graph.Basic
import JsonPaths.Json.Reader

namespace JsonPaths

/-- An outline of a value graph.  `text` is the value of a JSON text. -/
inductive Outline where
  | text (s : String)
  | json (v : Json)
  | array (items : List Outline)
  | object (members : List (Outline × Outline))
  | tuple (items : List Outline)
  | bytes (s : String)
  | emptySet
  | plainObject
  | up (n : Nat)
  | named (name : String) (part : Outline)
  deriving Inhabited

namespace Outline

/-- Why an outline stands for no graph: a text that is not JSON, or a thing of a
kind with a given name that can change in the place of a key. -/
inductive Fault where
  | unreadable (e : Json.ReadError)
  | containerKey (kind : String)
  deriving DecidableEq, Repr

/-! ### Keys -/

/-- The key that a node gives; things that can change give none.  The fuel
bounds the depth of tuples. -/
def keyAt (g : Graph) : (fuel : Nat) → Nat → Except Fault Key
  | 0, _ => .error (.containerKey "tuple")
  | fuel + 1, i =>
    match g.node i with
    | .null => .ok .null
    | .bool b => .ok (.bool b)
    | .int n => .ok (.int n)
    | .double x => .ok (.double x)
    | .string s => .ok (.text s)
    | .tuple items => (items.mapM (keyAt g fuel)).map .tuple
    | .array _ => .error (.containerKey "list")
    | .object _ => .error (.containerKey "dict")
    | .foreign _ _ (some key) => .ok key
    | .foreign kind _ none => .error (.containerKey kind)

/-! ### Nodes -/

/-- A graph in the making, with the nodes that have names. -/
structure Builder where
  graph : Graph
  names : List (String × Nat)

namespace Builder

/-- Adds a node. -/
def add (b : Builder) (n : Node) : Nat × Builder :=
  let (i, g) := b.graph.add n
  (i, { b with graph := g })

/-- Makes `n` the node of a number in use. -/
def put (b : Builder) (i : Nat) (n : Node) : Builder := { b with graph := b.graph.put i n }

/-- Adds the bytes of a string in UTF-8. -/
def addBytes (b : Builder) (s : String) : Nat × Builder :=
  b.add (.foreign "bytes" (some (String.ofList (Key.shownBytes s))) (some (.bytes s)))

/-- Adds a set with nothing in it. -/
def addEmptySet (b : Builder) : Nat × Builder := b.add (.foreign "set" (some "set()") none)

/-- The text that shows an object of no other kind.  Where it is kept is not in view, so
the number of the place is all zeros. -/
def shownObject : String := "<object object at 0x000000000000>"

/-- Adds an object of no other kind, which equals nothing but itself. -/
def addObject (b : Builder) : Nat × Builder :=
  let key := .thing b.graph.nodes.size "object" (some shownObject)
  b.add (.foreign "object" (some shownObject) (some key))

/-- Adds the nodes of a JSON value. -/
def addJson (b : Builder) (v : Json) : Nat × Builder :=
  let (i, g) := b.graph.addJson v
  (i, { b with graph := g })

end Builder

mutual

/-- Adds the nodes of an outline; `enclosing` are the arrays and objects around
it, the nearest one first.  Such a container has its number before its parts are
added, so that they can refer to it. -/
def layIn (enclosing : List Nat) (b : Builder) : Outline → Except Fault (Nat × Builder)
  | .text s =>
    match Json.read s with
    | .ok v => .ok (b.addJson v)
    | .error e => .error (.unreadable e)
  | .json v => .ok (b.addJson v)
  | .array items => do
    let (i, b) := b.add (.array [])
    let (is, b) ← layItems (i :: enclosing) b items
    return (i, b.put i (.array is))
  | .object members => do
    let (i, b) := b.add (.object [])
    let (ms, b) ← layMembers (i :: enclosing) b [] members
    return (i, b.put i (.object ms))
  | .tuple items => do
    let (is, b) ← layItems enclosing b items
    return b.add (.tuple is)
  | .bytes s => .ok (b.addBytes s)
  | .emptySet => .ok b.addEmptySet
  | .plainObject => .ok b.addObject
  | .up n =>
    match enclosing[n]? with
    | some i => .ok (i, b)
    | none => .ok (b.add .null)
  | .named name part =>
    match b.names.lookup name with
    | some i => .ok (i, b)
    | none => do
      let (i, b) ← layIn enclosing b part
      return (i, { b with names := (name, i) :: b.names })

/-- Adds the nodes of outlines in a row. -/
def layItems (enclosing : List Nat) (b : Builder) :
    List Outline → Except Fault (List Nat × Builder)
  | [] => .ok ([], b)
  | o :: os => do
    let (i, b) ← layIn enclosing b o
    let (is, b) ← layItems enclosing b os
    return (i :: is, b)

/-- Adds the nodes of the members of an object to those in `done`, of each
member the value before the key. -/
def layMembers (enclosing : List Nat) (b : Builder) (done : List (Key × Nat)) :
    List (Outline × Outline) → Except Fault (List (Key × Nat) × Builder)
  | [] => .ok (done, b)
  | (k, v) :: ms => do
    let (i, b) ← layIn enclosing b v
    let (j, b) ← layIn enclosing b k
    let key ← keyAt b.graph b.graph.depth j
    layMembers enclosing b (Assoc.put key i done) ms

end

/-- The node of an outline in a graph to which its nodes have been added. -/
def lay (o : Outline) (g : Graph) : Except Fault (Nat × Graph) := do
  let (i, b) ← layIn [] ⟨g, []⟩ o
  return (i, b.graph)

/-- What an outline stands for. -/
def candidate (o : Outline) : Except Fault Candidate :=
  match o with
  | .text s =>
    match Json.read s with
    | .ok v => .ok (.json v)
    | .error e => .error (.unreadable e)
  | .json v => .ok (.json v)
  | o => (o.lay .empty).map fun (i, g) => .graph g i

end Outline

end JsonPaths
