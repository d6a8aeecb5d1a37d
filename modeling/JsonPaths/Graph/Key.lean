/-
JsonPaths/Graph/Key.lean

Keys of the objects of a value graph.

Anything that cannot change may be a key: null, truth values, numbers, texts,
bytes, tuples of such things, and a thing of any other kind, which is known by a
number that it shares with what equals it.  Two keys are one if they are equal as
numbers, a truth value counting as zero or one, or if they are of one kind and hold
the same; so 1, 1.0 and true are one key, and NaN is the same key as itself.  A key
has a text unless a whole number in it has too many digits.
-/
import JsonPaths.Value.Shown
import JsonPaths.Json.Writer

namespace JsonPaths

/-- A key of an object.  A thing of a kind without a constructor comes with the name
of its kind and the text that shows it, if it can be shown. -/
inductive Key where
  | null
  | bool (b : Bool)
  | int (n : Int)
  | double (x : Double)
  | text (s : String)
  | bytes (s : String)
  | tuple (parts : List Key)
  | thing (identity : Nat) (kind : String) (shown : Option String)
  deriving Inhabited

namespace Key

/-! ### Sameness -/

mutual

/-- Whether two keys are one. -/
def same : Key → Key → Bool
  | .null, .null => true
  | .bool a, .bool b => a == b
  | .bool a, .int n | .int n, .bool a => n == a.toInt
  | .bool a, .double x | .double x, .bool a => x.equalsInt a.toInt
  | .int a, .int b => a == b
  | .int n, .double x | .double x, .int n => x.equalsInt n
  | .double x, .double y => x.equals y || (x == .nan && y == .nan)
  | .text a, .text b => a == b
  | .bytes a, .bytes b => a == b
  | .tuple as, .tuple bs => sameAll as bs
  | .thing i _ _, .thing j _ _ => i == j
  | _, _ => false

/-- Whether the parts of two tuples are the same keys in turn. -/
def sameAll : List Key → List Key → Bool
  | [], [] => true
  | a :: as, b :: bs => same a b && sameAll as bs
  | _, _ => false

end

instance : BEq Key := ⟨same⟩

/-! ### Texts -/

/-- Texts in a row, separated by a comma and a space. -/
def separated : List (List Char) → List Char
  | [] => []
  | [s] => s
  | s :: ss => s ++ ',' :: ' ' :: separated ss

/-- The texts of the parts of a tuple in parentheses; a single part is followed
by a comma. -/
def inParentheses (parts : List (List Char)) : List Char :=
  '(' :: (separated parts ++ (if parts.length = 1 then [',', ')'] else [')']))

/-- The text that shows the bytes of a string in UTF-8. -/
def shownBytes (s : String) : List Char :=
  'b' :: Text.quotedAscii (s.toUTF8.toList.map fun b => Char.ofNat b.toNat)

mutual

/-- The text that shows a key. -/
def shown : Key → Option (List Char)
  | .null => some "None".toList
  | .bool b => some (Value.shownBool b).toList
  | .int n => Text.intText? n
  | .double x => some (x.text Value.shownNames)
  | .text s => some (Text.quoted s.toList)
  | .bytes s => some (shownBytes s)
  | .tuple parts => (shownAll parts).map inParentheses
  | .thing _ _ shown => shown.map String.toList

/-- The texts that show keys. -/
def shownAll : List Key → Option (List (List Char))
  | [] => some []
  | k :: ks => do return (← k.shown) :: (← shownAll ks)

end

/-- Why a key has no name in JSON text: it is of a kind that has none, or a whole
number with too many digits. -/
inductive Unnamed where
  | kind (name : String)
  | tooLong
  deriving DecidableEq, Repr

/-- The name of a key in JSON text. -/
def written : Key → Except Unnamed String
  | .null => .ok "null"
  | .bool b => .ok (if b then "true" else "false")
  | .int n =>
    match Text.intText? n with
    | some s => .ok (String.ofList s)
    | none => .error .tooLong
  | .double x => .ok (String.ofList (x.text Json.specialNames))
  | .text s => .ok s
  | .bytes _ => .error (.kind "bytes")
  | .tuple _ => .error (.kind "tuple")
  | .thing _ kind _ => .error (.kind kind)

end Key

end JsonPaths
