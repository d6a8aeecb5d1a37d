/-
JsonPaths/Log/Console.lean

The line that the console shows for a log record.

A line is the time of day, the name of the level in at least eight places, the
message and the place in the source, one space between each two.  The level has
a style of its own; within the message the first occurrence of the subject of
the record is highlighted.  The subject is searched in the message as it was
before control characters were dropped.
-/
import JsonPaths.Log.Clock
import JsonPaths.Log.Level
import JsonPaths.Log.Styled
import JsonPaths.Log.Template
import JsonPaths.Storage.Location

namespace JsonPaths.Log

/-! ### Parts of a line -/

/-- The styles of the levels that have one. -/
def levelStyles : List (String × String) := [
  ("DEBUG", "dim"), ("INFO", "blue"), ("WARNING", "yellow"), ("ERROR", "red"),
  ("CRITICAL", "bold red")]

/-- The style of time and place. -/
def asideStyle : String := "dim"

/-- The style of the subject. -/
def subjectStyle : String := "cyan"

/-- A text filled up with spaces to eight places. -/
def padName (s : List Char) : List Char := s ++ List.replicate (8 - s.length) ' '

/-- The name of a level in its style. -/
def namePart (name : String) : Styled :=
  .inStyle (padName name.toList) (levelStyles.lookup name)

/-- The level in its style. -/
def levelPart (level : Int) : Styled := namePart (levelName level)

/-- The message with its subject highlighted. -/
def messagePart (message : List Char) (subject : Option String) : Styled :=
  let text := Styled.plain message
  match subject with
  | none => text
  | some s =>
    if s = "" then text
    else match Styled.occurrence? s.toList message with
      | none => text
      | some i => text.stylize subjectStyle i (i + s.length)

/-- The place in the source: the last part of the file name and the digits of the line. -/
def placeText (file line : List Char) : List Char :=
  '[' :: ((Location.ofText file).name ++ ':' :: (line ++ [']']))

/-- The place in the source in its style. -/
def placePart (file line : List Char) : Styled :=
  .inStyle (placeText file line) (some asideStyle)

/-- Level and message. -/
def levelAndMessage (level : Int) (message : List Char) (subject : Option String) : Styled :=
  .concat [levelPart level, .plain [' '], messagePart message subject]

/-! ### Consoles -/

/-- A console: it prints the records of its level or above. -/
structure Console where
  level : Int
  deriving DecidableEq, Repr

/-- A console as it is attached, which passes over nothing of level zero or above. -/
def Console.plain : Console := ⟨0⟩

/-- What a console prints of a record, without time and place. -/
def Console.print (c : Console) (level : Int) (message : List Char)
    (subject : Option String) : List Styled :=
  if level < c.level then [] else [levelAndMessage level message subject]

/-! ### The line -/

/-- A record as it was issued. -/
structure Event where
  template : String
  args : List String
  level : Int
  file : String
  line : Int
  created : Moment
  subject : Option String

/-- The line of a record whose level has the given name, unless its time, its message or
the number of its line in the source cannot be shown. -/
def Event.lineAs? (e : Event) (name : String) : Option Styled := do
  let clock ← e.created.clock?
  let message ← Template.message e.template.toList e.args
  let line ← Text.intText? e.line
  return .concat [.inStyle clock (some asideStyle), .plain [' '], namePart name,
    .plain [' '], messagePart message e.subject, .plain [' '],
    placePart e.file.toList line]

/-- The line of a record. -/
def Event.line? (e : Event) : Option Styled := e.lineAs? (levelName e.level)

end JsonPaths.Log
