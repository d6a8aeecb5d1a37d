/-
JsonPaths/Config.lean

Defaults for documents.

A configuration is read from named texts, each of which has a default.  A flag
is one of a few words in any case, with blanks around it; the indentation is a
whole number that is not negative.  The first text that cannot be read, in the
order of the fields, is the fault.
-/
import JsonPaths.Log.Level
import JsonPaths.Text.Integer
import JsonPaths.Text.Uppercase
import JsonPaths.Value.Shown

namespace JsonPaths

/-! ### Flags -/

/-- A flag as it was given: whether it is on, and the text that shows it, if it can be
shown. -/
structure Flag where
  on : Bool
  shown : Option String
  deriving DecidableEq, Repr

namespace Flag

/-- The flag of a truth value. -/
def ofBool (b : Bool) : Flag := ⟨b, some (Value.shownBool b)⟩

/-- Whether a JSON value counts as true: all do but null, false, zero, and what
is empty. -/
def holds : Json → Bool
  | .null => false
  | .bool b => b
  | .int n => n != 0
  | .double x => !x.equalsInt 0
  | .string s => s != ""
  | .array _ items => !items.isEmpty
  | .object _ members => !members.isEmpty

/-- The flag that a JSON value gives. -/
def ofJson (v : Json) : Flag := ⟨holds v, v.inSentence⟩

end Flag

/-! ### Indentation -/

/-- The indentation of saved text: none at all, which keeps it on one line, a
number of spaces, a truth value, which counts as one space or none, a text of
its own, or a value of another kind, which cannot be used. -/
inductive Indent where
  | none
  | spaces (n : Int)
  | truth (b : Bool)
  | text (s : String)
  | unusable (v : Json)

namespace Indent

/-- The indentation that a JSON value gives. -/
def ofJson : Json → Indent
  | .null => .none
  | .int n => .spaces n
  | .bool b => .truth b
  | .string s => .text s
  | v => .unusable v

/-- Why an indentation cannot be used: a number out of the range of machine
words, more spaces than there is room for, or a kind of value that is no number. -/
inductive Fault where
  | outOfRange
  | noRoom
  | notNumber (typeName : String)
  deriving DecidableEq, Repr

/-- The number of spaces for which there is no room.  It depends on the machine: a space
takes one byte, and a margin of 64 GiB is taken to be more than the machine can hold. -/
def roomLimit : Int := Int.pow 2 36

/-- The margin of a line by its depth; without indentation there is none.  A
negative number of spaces is no space. -/
def margin : Indent → Except Fault (Option (Nat → List Char))
  | .none => .ok Option.none
  | .spaces n =>
    if n < -Int.pow 2 63 ∨ Int.pow 2 63 ≤ n then .error .outOfRange
    else if roomLimit ≤ n then .error .noRoom
    else .ok (some fun depth => List.replicate (depth * n.toNat) ' ')
  | .truth b => .ok (some fun depth => List.replicate (depth * b.toNat) ' ')
  | .text s => .ok (some fun depth => (List.replicate depth s.toList).flatten)
  | .unusable v => .error (.notNumber v.typeName)

/-- The text that shows an indentation. -/
def shown : Indent → Option String
  | .none => some "None"
  | .spaces n => (Text.intText? n).map String.ofList
  | .truth b => some (Value.shownBool b)
  | .text s => some s
  | .unusable v => v.shown

end Indent

/-! ### Configurations -/

/-- Defaults for documents. -/
structure Config where
  suppressErrors : Flag
  suppressDiagnostics : Flag
  indent : Indent
  logLevel : Log.LevelRequest

namespace Config

/-- The configuration when nothing is set. -/
def default : Config := ⟨.ofBool false, .ofBool false, .spaces 2, .named "INFO"⟩

/-! ### Reading -/

/-- Why a named text cannot be read. -/
inductive Fault where
  | notFlag (name raw : String)
  | notInteger (name raw : String)
  | negative (name : String) (n : Int)
  deriving DecidableEq, Repr

/-- The words of a fault. -/
def Fault.message : Fault → String
  | .notFlag name raw =>
    s!"{name} must be a boolean flag (1/0, true/false), got {Text.showText raw}"
  | .notInteger name raw => s!"{name} must be an integer, got {Text.showText raw}"
  | .negative name n => s!"{name} must be >= 0, got {n}"

/-- The words for a flag that is set. -/
def trueWords : List String := ["1", "true", "yes", "on"]

/-- The words for a flag that is not set. -/
def falseWords : List String := ["0", "false", "no", "off", ""]

/-- A flag.  No letter beyond ASCII becomes one of these words in lower case, so
only ASCII letters are taken to lower case. -/
def readFlag (name raw : String) : Except Fault Bool :=
  let word := String.ofList ((Text.strip raw.toList).map Char.toLower)
  if trueWords.contains word then .ok true
  else if falseWords.contains word then .ok false
  else .error (.notFlag name raw)

/-- An indentation. -/
def readIndent (name raw : String) : Except Fault Int :=
  match Text.readInteger? raw.toList with
  | none => .error (.notInteger name raw)
  | some n => if n < 0 then .error (.negative name n) else .ok n

/-- The configuration that named texts give. -/
def ofEnvironment (env : List (String × String)) : Except Fault Config := do
  let get (name fallback : String) : String := (env.lookup name).getD fallback
  let errors ← readFlag "JQPATH_SUPPRESS_ERRORS" (get "JQPATH_SUPPRESS_ERRORS" "0")
  let diagnostics ←
    readFlag "JQPATH_SUPPRESS_DIAGNOSTICS" (get "JQPATH_SUPPRESS_DIAGNOSTICS" "0")
  let indent ← readIndent "JQPATH_INDENT" (get "JQPATH_INDENT" "2")
  let level := Text.upper (get "JQPATH_LOG_LEVEL" "INFO").toList
  return ⟨.ofBool errors, .ofBool diagnostics, .spaces indent, .named (String.ofList level)⟩

/-! ### Showing -/

/-- The text that shows the level asked for. -/
def shownLevel : Log.LevelRequest → Option String
  | .named name => some (Text.showText name)
  | .numbered n => (Text.intText? n).map String.ofList
  | .truth b => some (Value.shownBool b)
  | .other shown => shown

/-- The text that shows a configuration. -/
def shown (c : Config) : Option String := do
  let errors ← c.suppressErrors.shown
  let diagnostics ← c.suppressDiagnostics.shown
  let indent ← c.indent.shown
  let level ← shownLevel c.logLevel
  return s!"JqPathConfig(suppress_errors={errors}, suppress_diagnostics={diagnostics}, " ++
    s!"indent={indent}, log_level={level})"

end Config

end JsonPaths
