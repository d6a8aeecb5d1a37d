/-
JsonPaths/Text/Newline.lean

One kind of line end.
-/

namespace JsonPaths.Text

/-- The text with a line feed for every carriage return, alone or before a line
feed. -/
def unifyNewlines : List Char → List Char
  | '\r' :: '\n' :: r => '\n' :: unifyNewlines r
  | '\r' :: r => '\n' :: unifyNewlines r
  | c :: r => c :: unifyNewlines r
  | [] => []

end JsonPaths.Text
