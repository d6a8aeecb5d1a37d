/-
JsonPaths/Text/Pieces.lean

Splitting a text at a separator.

The pieces are what stands between separators, so there is always one more
piece than there are separators, and pieces may be empty.
-/

namespace JsonPaths.Text

/-- The pieces of a text between its separators. -/
def pieces (separator : Char) : List Char → List (List Char)
  | [] => [[]]
  | c :: r =>
    if c = separator then [] :: pieces separator r
    else match pieces separator r with
      | [] => [[c]]
      | p :: ps => (c :: p) :: ps

end JsonPaths.Text
