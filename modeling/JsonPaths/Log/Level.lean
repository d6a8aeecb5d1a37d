/-
JsonPaths/Log/Level.lean

Levels of log records.

A level is a number; the higher the graver.  Six numbers have names, and two of
them have a second name that may be asked for.
-/

namespace JsonPaths.Log

/-- The name of a level. -/
def levelName (n : Int) : String :=
  if n = 50 then "CRITICAL"
  else if n = 40 then "ERROR"
  else if n = 30 then "WARNING"
  else if n = 20 then "INFO"
  else if n = 10 then "DEBUG"
  else if n = 0 then "NOTSET"
  else s!"Level {n}"

/-- The levels by the names that may be asked for. -/
def namedLevels : List (String × Int) := [
  ("CRITICAL", 50), ("FATAL", 50), ("ERROR", 40), ("WARN", 30), ("WARNING", 30),
  ("INFO", 20), ("DEBUG", 10), ("NOTSET", 0)]

/-- The level of warnings. -/
def warning : Int := 30

/-- The level of debug records. -/
def debug : Int := 10

/-- A level as it is asked for: by name, by number, by a truth value, which counts
as one or zero, or by something else, known by the text that shows it, if it can be
shown. -/
inductive LevelRequest where
  | named (name : String)
  | numbered (n : Int)
  | truth (b : Bool)
  | other (shown : Option String)
  deriving DecidableEq, Repr

/-- Why there is no such level.  What is asked for may be of a kind that is no level,
and have no text that shows it. -/
inductive LevelFault where
  | unknownName (name : String)
  | noLevel (shown : String)
  | tooLong
  deriving DecidableEq, Repr

/-- The level that is asked for. -/
def LevelRequest.resolve : LevelRequest → Except LevelFault Int
  | .named name =>
    match namedLevels.lookup name with
    | some n => .ok n
    | none => .error (.unknownName name)
  | .numbered n => .ok n
  | .truth b => .ok b.toInt
  | .other (some shown) => .error (.noLevel shown)
  | .other none => .error .tooLong

/-- The least level that passes a logger: its own, or that of warnings if its
own is zero. -/
def effective (own : Int) : Int := if own = 0 then warning else own

/-- Whether a record of a level passes a logger. -/
def passes (own level : Int) : Bool := effective own ≤ level

end JsonPaths.Log
