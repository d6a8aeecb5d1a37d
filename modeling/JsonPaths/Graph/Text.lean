/-
JsonPaths/Graph/Text.lean

The texts of a value graph.

`shown` is the text that messages have: a container that is met again inside
itself is shown by three dots in its brackets.  `json` is the JSON value that a
node is written as, without a check: a tuple is written as an array, a key that
is a scalar by its JSON text, and other things not at all.  There is neither text
where a whole number has too many digits.
-/
import JsonPaths.Graph.Basic

namespace JsonPaths.Graph

/-! ### Shown -/

/-- The text that shows a node, which is reached through the containers `above`.
The fuel bounds the depth. -/
def shownFrom (g : Graph) : (fuel : Nat) → (above : List Nat) → Nat → Option (List Char)
  | 0, _, _ => some []
  | fuel + 1, above, i =>
    match g.node i with
    | .null => some "None".toList
    | .bool b => some (Value.shownBool b).toList
    | .int n => Text.intText? n
    | .double x => some (x.text Value.shownNames)
    | .string s => some (Text.quoted s.toList)
    | .array items =>
      if i ∈ above then some "[...]".toList
      else do
        let texts ← items.mapM (shownFrom g fuel (i :: above))
        return '[' :: (Key.separated texts ++ [']'])
    | .object members =>
      if i ∈ above then some "\x7b...\x7d".toList
      else do
        let texts ← members.mapM fun m => do
          let key ← m.1.shown
          let value ← shownFrom g fuel (i :: above) m.2
          return key ++ ':' :: ' ' :: value
        return '\x7b' :: (Key.separated texts ++ ['\x7d'])
    | .tuple items =>
      if i ∈ above then some "(...)".toList
      else (items.mapM (shownFrom g fuel (i :: above))).map Key.inParentheses
    | .foreign _ shown _ => shown.map String.toList

/-- The text that shows a node. -/
def shown (g : Graph) (i : Nat) : Option String :=
  (g.shownFrom g.depth [] i).map String.ofList

/-! ### Written -/

/-- Why a graph cannot be written as JSON text: it holds a thing or a key of a
kind that has no text, a whole number with too many digits, or a container that
contains itself. -/
inductive Unwritable where
  | unsupported (kind : String)
  | badKey (kind : String)
  | tooLong
  | circular
  deriving DecidableEq, Repr

/-- Why a graph with a key that has no name cannot be written. -/
def Unwritable.ofKey : Key.Unnamed → Unwritable
  | .kind name => .badKey name
  | .tooLong => .tooLong

/-- The JSON value that a node is written as; it is reached through the
containers `above`.  The fuel bounds the depth. -/
def jsonFrom (g : Graph) : (fuel : Nat) → (above : List Nat) → Nat → Except Unwritable Json
  | 0, _, _ => .error .circular
  | fuel + 1, above, i =>
    match g.node i with
    | .null => .ok .null
    | .bool b => .ok (.bool b)
    | .int n => if (Text.intText? n).isSome then .ok (.int n) else .error .tooLong
    | .double x => .ok (.double x)
    | .string s => .ok (.string s)
    | .array items | .tuple items =>
      if i ∈ above then .error .circular
      else (items.mapM (jsonFrom g fuel (i :: above))).map (.array ())
    | .object members =>
      if i ∈ above then .error .circular
      else
        let written := members.mapM fun m => do
          let name ← m.1.written.mapError Unwritable.ofKey
          return (name, ← jsonFrom g fuel (i :: above) m.2)
        written.map (.object ())
    | .foreign kind _ _ => .error (.unsupported kind)

/-- The JSON value that a node is written as.  Members with one name stand side
by side in it if their keys differ. -/
def json (g : Graph) (i : Nat) : Except Unwritable Json := g.jsonFrom g.depth [] i

end JsonPaths.Graph
