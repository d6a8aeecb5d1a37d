/-
JsonPaths/Storage/Location.lean

Names of files.

A name is split at its slashes; empty parts and parts that are a single dot
mean nothing and are dropped.  The name without any part is the current
directory, a dot.  One slash in front, or three and more, stand for the root of
all directories; two slashes in front are kept as they are.
-/
import JsonPaths.Text.Pieces
import JsonPaths.Text.Quoted

namespace JsonPaths

/-- Where a file is: a row of parts below the current directory, or below a root
if there are slashes in front. -/
structure Location where
  slashes : Nat
  parts : List (List Char)
  deriving DecidableEq, Repr

namespace Location

/-- The part that leads to the directory above. -/
def above : List Char := ['.', '.']

/-- The location that a name gives. -/
def ofText (name : List Char) : Location :=
  let slashes := (name.takeWhile (· == '/')).length
  ⟨if slashes ≤ 2 then slashes else 1,
    (Text.pieces '/' name).filter fun p => p != [] && p != ['.']⟩

/-- The name of a location. -/
def text (l : Location) : List Char :=
  if l.slashes = 0 ∧ l.parts = [] then ['.']
  else List.replicate l.slashes '/' ++ ['/'].intercalate l.parts

/-- The last part, which is empty if there is none. -/
def name (l : Location) : List Char := l.parts.getLast?.getD []

/-- The location beside this one whose last part has an ending added. -/
def addEnding (l : Location) (ending : List Char) : Location :=
  ⟨l.slashes, l.parts.dropLast ++ [l.name ++ ending]⟩

/-- The name between quotes. -/
def shown (l : Location) : String := Text.showChars l.text

end Location

end JsonPaths
