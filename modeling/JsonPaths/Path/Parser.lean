/-
JsonPaths/Path/Parser.lean

Reading path text.

A path starts with a dot.  What follows is split at dots into segments, after
every `[]` has been dropped in one pass: such a marker says that an array is
flattened and carries no index.  A segment is a name followed by any number of
indexes in brackets; the first segment may lack the name.
-/
import JsonPaths.Path.Step
import JsonPaths.Text.Numeral
import JsonPaths.Text.Pieces
import JsonPaths.Text.Quoted

namespace JsonPaths

/-! ### Faults -/

/-- What is wrong with a path text. -/
inductive PathFault where
  | noLeadingDot
  | emptyName
  | strayBracket (segment : List Char)
  | textAfterIndex (rest segment : List Char)
  | unterminatedIndex (segment : List Char)
  | badIndex (token : List Char)
  deriving DecidableEq, Repr

/-- Why reading a path stopped: a fault, or an index with too many digits. -/
inductive PathStop where
  | fault (f : PathFault)
  | tooManyDigits (count : Nat)
  deriving DecidableEq, Repr

/-- The words of a fault. -/
def PathFault.reason : PathFault → String
  | .noLeadingDot => "path must start with '.'"
  | .emptyName => "empty field name"
  | .strayBracket segment => s!"unexpected ']' in segment {Text.showChars segment}"
  | .textAfterIndex rest segment =>
    s!"unexpected text {Text.showChars rest} after index in segment {Text.showChars segment}"
  | .unterminatedIndex segment => s!"unterminated index in segment {Text.showChars segment}"
  | .badIndex token => s!"index {Text.showChars token} must be a non-negative integer"

namespace Path

/-! ### Segments -/

/-- The text without the markers `[]`, each found to the right of the last. -/
def dropMarkers : List Char → List Char
  | '[' :: ']' :: r => dropMarkers r
  | c :: r => c :: dropMarkers r
  | [] => []

mutual

/-- The indexes of a segment. -/
def readIndexes (segment : List Char) : List Char → Except PathStop (List Step)
  | [] => .ok []
  | c :: r =>
    if c = '[' then readIndex segment [] r
    else .error (.fault (.textAfterIndex (c :: r) segment))

/-- The indexes of a segment from within a pair of brackets; the characters of
the index before the text are in `token`, in reverse. -/
def readIndex (segment token : List Char) : List Char → Except PathStop (List Step)
  | [] => .error (.fault (.unterminatedIndex segment))
  | c :: r =>
    if c = ']' then
      if token.isEmpty || !token.all Char.isDigit then
        .error (.fault (.badIndex token.reverse))
      else if Text.digitLimit < token.length then .error (.tooManyDigits token.length)
      else (readIndexes segment r).map (.index (Nat.ofDigitChars 10 token.reverse 0) :: ·)
    else readIndex segment (c :: token) r

end

/-- The steps of a segment, which may lack a name only if `bare`. -/
def readSegment (bare : Bool) (segment : List Char) : Except PathStop (List Step) :=
  let name := segment.takeWhile (· != '[')
  let rest := segment.dropWhile (· != '[')
  if name.contains ']' then .error (.fault (.strayBracket segment))
  else if name.isEmpty then
    if bare && !rest.isEmpty then readIndexes segment rest else .error (.fault .emptyName)
  else (readIndexes segment rest).map (.field (String.ofList name) :: ·)

/-- The steps of segments in a row, of which only the first may lack a name. -/
def readSegments (bare : Bool) : List (List Char) → Except PathStop (List Step)
  | [] => .ok []
  | s :: ss =>
    match readSegment bare s with
    | .error e => .error e
    | .ok steps => (readSegments false ss).map (steps ++ ·)

/-! ### Whole paths -/

/-- The steps that a path text denotes. -/
def readChars (path : List Char) : Except PathStop (List Step) :=
  match path with
  | '.' :: r =>
    let body := dropMarkers r
    if body.isEmpty then .ok [] else readSegments true (Text.pieces '.' body)
  | _ => .error (.fault .noLeadingDot)

/-- The steps that a path text denotes. -/
def parse (path : String) : Except PathStop (List Step) := readChars path.toList

end Path

end JsonPaths
