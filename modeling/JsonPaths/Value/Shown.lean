/-
JsonPaths/Value/Shown.lean

Values as messages show them, and the names of their types.

Messages write `None`, `True` and `False`, quote strings by
`JsonPaths.Text.Quoted` and separate by a comma and a space.  A value is shown
unless a whole number in it has too many digits.
-/
import JsonPaths.Value.Basic
import JsonPaths.Double.Shortest
import JsonPaths.Text.Numeral
import JsonPaths.Text.Quoted

namespace JsonPaths.Value

variable {μ : Type}

/-- The spellings that messages have for the special values of a double. -/
def shownNames : Double.SpecialNames := ⟨"nan", "inf"⟩

/-- The text of a truth value. -/
def shownBool (b : Bool) : String := if b then "True" else "False"

mutual

/-- The characters that show a value. -/
def shownChars : Value μ → Option (List Char)
  | .null => some "None".toList
  | .bool b => some (shownBool b).toList
  | .int n => Text.intText? n
  | .double x => some (x.text shownNames)
  | .string s => some (Text.quoted s.toList)
  | .array _ items => do return '[' :: ((← shownItems items) ++ [']'])
  | .object _ members => do return '\x7b' :: ((← shownMembers members) ++ ['\x7d'])

/-- The items of an array, separated. -/
def shownItems : List (Value μ) → Option (List Char)
  | [] => some []
  | [v] => v.shownChars
  | v :: vs => do
    let first ← v.shownChars
    let rest ← shownItems vs
    return first ++ ',' :: ' ' :: rest

/-- The members of an object, separated. -/
def shownMembers : List (String × Value μ) → Option (List Char)
  | [] => some []
  | [(k, v)] => do
    let value ← v.shownChars
    return Text.quoted k.toList ++ ':' :: ' ' :: value
  | (k, v) :: ms => do
    let value ← v.shownChars
    let rest ← shownMembers ms
    return Text.quoted k.toList ++ ':' :: ' ' :: (value ++ ',' :: ' ' :: rest)

end

/-- The text that shows a value. -/
def shown (v : Value μ) : Option String := v.shownChars.map String.ofList

/-- The text of a value inside a sentence, where a string has no quotes. -/
def inSentence : Value μ → Option String
  | .string s => some s
  | v => v.shown

/-- The name of the type of a value, as messages have it. -/
def typeName : Value μ → String
  | .null => "NoneType"
  | .bool _ => "bool"
  | .int _ => "int"
  | .double _ => "float"
  | .string _ => "str"
  | .array _ _ => "list"
  | .object _ _ => "dict"

end JsonPaths.Value
