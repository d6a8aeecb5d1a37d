/-
JsonPaths/Json/Writer.lean

JSON text of a value.

A `Layout` fixes the separators and whether every item stands on a line of its
own.  Everything except quotes, backslashes and control characters below the
space is written as it is.  A value has a text unless a whole number in it has too
many digits.
-/
import JsonPaths.Value.Basic
import JsonPaths.Double.Shortest
import JsonPaths.Text.Numeral
import JsonPaths.Text.Quoted

namespace JsonPaths.Json

/-! ### Scalars -/

/-- The spellings that JSON text has for the special values of a double. -/
def specialNames : Double.SpecialNames := ⟨"NaN", "Infinity"⟩

/-- A character inside a string. -/
def escapeChar (c : Char) : List Char :=
  if c = '"' ∨ c = '\\' then ['\\', c]
  else if c = '\n' then ['\\', 'n']
  else if c = '\r' then ['\\', 'r']
  else if c = '\t' then ['\\', 't']
  else if c = '\x0c' then ['\\', 'f']
  else if c = '\x08' then ['\\', 'b']
  else if c.toNat < 32 then '\\' :: 'u' :: Text.hex 4 c.toNat
  else [c]

/-- A string with its quotes. -/
def stringText (s : String) : List Char :=
  '"' :: (s.toList.flatMap escapeChar ++ ['"'])

/-! ### Layouts -/

/-- How the parts of arrays and objects are set apart.  With a margin, which is
the text at the start of a line by the depth of what stands there, every item
has a line of its own. -/
structure Layout where
  comma : List Char
  colon : List Char
  margin : Option (Nat → List Char)

namespace Layout

/-- No spaces at all. -/
def compact : Layout := ⟨[','], [':'], none⟩

/-- One line, with a space after each comma and each colon. -/
def spaced : Layout := ⟨[',', ' '], [':', ' '], none⟩

/-- One line for each item, after a margin. -/
def indented (margin : Nat → List Char) : Layout := ⟨[','], [':', ' '], some margin⟩

/-- The break before an item at the given depth. -/
def lineBreak (l : Layout) (depth : Nat) : List Char :=
  match l.margin with
  | none => []
  | some m => '\n' :: m depth

end Layout

/-! ### Values -/

mutual

/-- The text of a value that stands at the given depth. -/
def writeAt (l : Layout) (depth : Nat) : Json → Option (List Char)
  | .null => some "null".toList
  | .bool b => some (if b then "true".toList else "false".toList)
  | .int n => Text.intText? n
  | .double x => some (x.text specialNames)
  | .string s => some (stringText s)
  | .array _ [] => some ['[', ']']
  | .array _ items@(_ :: _) => do
    let inner ← writeItems l (depth + 1) items
    return '[' :: (l.lineBreak (depth + 1) ++ inner ++ l.lineBreak depth ++ [']'])
  | .object _ [] => some ['\x7b', '\x7d']
  | .object _ members@(_ :: _) => do
    let inner ← writeMembers l (depth + 1) members
    return '\x7b' :: (l.lineBreak (depth + 1) ++ inner ++ l.lineBreak depth ++ ['\x7d'])

/-- The items of an array between its brackets. -/
def writeItems (l : Layout) (depth : Nat) : List Json → Option (List Char)
  | [] => some []
  | [v] => writeAt l depth v
  | v :: vs => do
    let first ← writeAt l depth v
    let rest ← writeItems l depth vs
    return first ++ (l.comma ++ l.lineBreak depth ++ rest)

/-- The members of an object between its braces. -/
def writeMembers (l : Layout) (depth : Nat) : List (String × Json) → Option (List Char)
  | [] => some []
  | [(k, v)] => do
    let value ← writeAt l depth v
    return stringText k ++ (l.colon ++ value)
  | (k, v) :: ms => do
    let value ← writeAt l depth v
    let rest ← writeMembers l depth ms
    return stringText k ++ (l.colon ++ value ++ (l.comma ++ l.lineBreak depth ++ rest))

end

/-- The text of a value. -/
def write (l : Layout) (v : Json) : Option String := (writeAt l 0 v).map String.ofList

/-- The text of a value without any spaces. -/
def compactText (v : Json) : Option String := write .compact v

end JsonPaths.Json
