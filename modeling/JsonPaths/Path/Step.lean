/-
JsonPaths/Path/Step.lean

The steps of a path and their text.

A step selects a member of an object by its name or an item of an array by its
place.  The text of a path is the text of its steps in a row, with a dot in
front if the first step is no name.  A place is written here with all its digits; one
that has too many for a text is read from no text, and no array that fits in memory has
it.
-/

namespace JsonPaths

/-- A step of a path. -/
inductive Step where
  | field (name : String)
  | index (i : Nat)
  deriving DecidableEq, Repr, Inhabited

/-- Why a step cannot be made. -/
inductive StepFault where
  | emptyName
  | negativeIndex
  deriving DecidableEq, Repr

namespace Step

/-- A step by name; the name must have a character. -/
def ofName (name : String) : Except StepFault Step :=
  if name = "" then .error .emptyName else .ok (.field name)

/-- A step by place; places count from zero. -/
def ofPlace (i : Int) : Except StepFault Step :=
  if i < 0 then .error .negativeIndex else .ok (.index i.toNat)

/-- The characters of a step. -/
def chars : Step → List Char
  | .field name => '.' :: name.toList
  | .index i => '[' :: (Nat.toDigits 10 i ++ [']'])

/-- The text of a step. -/
def render (s : Step) : String := String.ofList s.chars

end Step

namespace Path

/-- A text as a path, which starts with a dot. -/
def dotted : List Char → List Char
  | '.' :: r => '.' :: r
  | s => '.' :: s

/-- The characters of a path. -/
def chars (steps : List Step) : List Char := dotted (steps.flatMap Step.chars)

/-- The text of a path. -/
def render (steps : List Step) : String := String.ofList (chars steps)

end Path

end JsonPaths
