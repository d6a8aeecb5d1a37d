/-
JsonPaths/Error.lean

What can go wrong, and how it is said.

A `Setback` is a failure of a path or of a search; a document reports it as its
flags say.  Every other `Error` is raised whatever the flags are.  The wording
of each is fixed here, and nowhere else.
-/
import JsonPaths.Config
import JsonPaths.Graph.Check
import JsonPaths.Graph.Outline
import JsonPaths.Graph.Reach
import JsonPaths.Path.Parser
import JsonPaths.Storage.Directory
import JsonPaths.Text.Utf8

namespace JsonPaths

/-! ### Setbacks -/

/-- A failure that the flags of a document govern: a path that is malformed, a
path whose step after the first `done` ones does not resolve, a path that
cannot be assigned, or a value that no leaf holds, with the text that shows it. -/
inductive Setback where
  | malformed (path : String) (fault : PathFault)
  | unresolved (steps : List Step) (done : Nat)
  | unassignable (steps : List Step)
  | absent (value : Json) (shown : String)

namespace Setback

/-- The path that a setback is about. -/
def path : Setback → String
  | .malformed path _ => path
  | .unresolved steps _ | .unassignable steps => Path.render steps
  | .absent _ _ => "."

/-- The reason of a setback. -/
def reason : Setback → String
  | .malformed _ fault => fault.reason
  | .unresolved steps done =>
    let step := (steps[done]?.map Step.chars).getD []
    let under := Path.chars (steps.take done)
    s!"{Text.showChars step} does not resolve under {Text.showChars under}"
  | .unassignable steps =>
    let step := (steps.getLast?.map Step.chars).getD []
    let under := Path.chars steps.dropLast
    s!"{Text.showChars step} cannot be assigned under {Text.showChars under}"
  | .absent _ shown => s!"no leaf path holds value {shown}"

/-- What is said of a setback. -/
def message (s : Setback) : String :=
  match s with
  | .malformed path _ => s!"invalid path {Text.showText path}: {s.reason}"
  | .unresolved _ _ | .unassignable _ =>
    s!"path {Text.showText s.path} not found: {s.reason}"
  | .absent _ _ => s.reason

end Setback

/-! ### Errors -/

/-- What a checked value is meant for. -/
inductive Role where
  | document
  | assigned
  | searched
  deriving DecidableEq, Repr

/-- What a value of a role is called. -/
def Role.words : Role → String
  | .document => "document value"
  | .assigned => "assigned value"
  | .searched => "searched value"

/-- Why the text of a file cannot be read. -/
inductive FileFault where
  | storage (f : StorageFault) (file : Location)
  | encoding (f : Text.Utf8.Fault)
  deriving DecidableEq, Repr

/-- What is said of bytes that are not UTF-8. -/
def encodingMessage (f : Text.Utf8.Fault) : String :=
  if f.stop = f.start + 1 then
    let byte := String.ofList (Text.hex 2 f.byte.toNat)
    s!"'utf-8' codec can't decode byte 0x{byte} in position {f.start}: {f.flaw.words}"
  else
    s!"'utf-8' codec can't decode bytes in position {f.start}-{f.stop - 1}: {f.flaw.words}"

/-- What is said of a file that cannot be read. -/
def FileFault.message : FileFault → String
  | .storage .nulInName _ => StorageFault.nulInName.words
  | .storage f file => s!"{f.words}: {file.shown}"
  | .encoding f => encodingMessage f

/-- Everything that can go wrong.  A whole number with too many digits to be written
stops whatever would write or show it, an error that is on its way included. -/
inductive Error where
  | setback (s : Setback)
  | tooManyDigits (count : Nat)
  | tooLong
  | pathNotText (typeName : String)
  | noSteps
  | badStep (f : StepFault)
  | foreign (shown : String)
  | unwritable (u : Graph.Unwritable)
  | containerKey (kind : String)
  | nullDocument
  | notJson (role : Role) (problem : Graph.Problem)
  | badText (fault : Json.Fault) (line column offset : Nat)
  | badPlainText (fault : Json.Fault) (line column offset : Nat)
  | textNotText (typeName : String)
  | unreadableFile (file : Location) (fault : FileFault)
  | badFile (file : Location) (fault : Json.Fault) (line column offset : Nat)
  | nullFile (file : Location)
  | namelessFile (file : Location)
  | indent (fault : Indent.Fault)
  | file (fault : FileFault)
  | move (fault : StorageFault) (source target : Location)
  | level (fault : Log.LevelFault)
  | noDocument (name : String)

instance : Inhabited Error := ⟨.nullDocument⟩

namespace Error

/-- What is wrong with a value that is not JSON. -/
def problemMessage (role : Role) : Graph.Problem → String
  | .unsupported kind => s!"{role.words} is not a JSON value: unsupported type {kind}"
  | .badKey shown => s!"{role.words} has a non-string object key {shown}"
  | .unshownKey => Text.tooLong
  | .cycle => s!"{role.words} contains a reference cycle"

/-- A shown value that is longer than 100 characters is cut there. -/
def cutShown (s : String) : String :=
  if 100 < s.length then String.ofList (s.toList.take 100) ++ "..." else s

/-- What is said of an error. -/
def message : Error → String
  | .setback s => s.message
  | .tooManyDigits n => Text.tooManyDigits n
  | .tooLong => Text.tooLong
  | .pathNotText typeName => s!"path must be a string, got {typeName}"
  | .noSteps => "the root cannot be assigned in place"
  | .badStep .emptyName => "string_too_short"
  | .badStep .negativeIndex => "greater_than_equal"
  | .foreign shown => s!"Expected code to be unreachable, but got: {cutShown shown}"
  | .unwritable (.unsupported kind) => s!"Object of type {kind} is not JSON serializable"
  | .unwritable (.badKey kind) => s!"keys must be str, int, float, bool or None, not {kind}"
  | .unwritable .tooLong => Text.tooLong
  | .unwritable .circular => "Circular reference detected"
  | .containerKey kind => s!"unhashable type: '{kind}'"
  | .nullDocument => "document value must not be null"
  | .notJson role problem => problemMessage role problem
  | .badText f line column offset =>
    s!"invalid JSON text: {Json.faultText f line column offset}"
  | .badPlainText f line column offset => Json.faultText f line column offset
  | .textNotText typeName =>
    s!"the JSON object must be str, bytes or bytearray, not {typeName}"
  | .unreadableFile place fault =>
    s!"cannot read JSON file {String.ofList place.text}: {fault.message}"
  | .badFile place f line column offset =>
    s!"invalid JSON in {String.ofList place.text}: {Json.faultText f line column offset}"
  | .nullFile place => s!"JSON file {String.ofList place.text} holds a null document"
  | .namelessFile place => s!"PosixPath({place.shown}) has an empty name"
  | .indent .outOfRange => "cannot fit 'int' into an index-sized integer"
  | .indent .noRoom => ""
  | .indent (.notNumber typeName) =>
    s!"can't multiply sequence by non-int of type '{typeName}'"
  | .file fault => fault.message
  | .move fault source target => s!"{fault.words}: {source.shown} -> {target.shown}"
  | .level (.unknownName name) => s!"Unknown level: {Text.showText name}"
  | .level (.noLevel shown) => s!"Level not an integer or a valid string: {shown}"
  | .level .tooLong => Text.tooLong
  | .noDocument name => name

/-- A text that is written or shown, unless a whole number in it has too many digits. -/
def orTooLong {α : Type} : Option α → Except Error α
  | some a => .ok a
  | none => .error .tooLong

/-- The error of a value that no leaf holds; what is said of it shows the value. -/
def absent (value : Json) : Error :=
  match value.shown with
  | some shown => .setback (.absent value shown)
  | none => .tooLong

/-- The error that stands for what is wrong with a value of a role. -/
def ofProblem (role : Role) : Graph.Problem → Error
  | .unshownKey => .tooLong
  | problem => .notJson role problem

/-- The error that stands for a value that cannot be written. -/
def ofUnwritable : Graph.Unwritable → Error
  | .tooLong => .tooLong
  | u => .unwritable u

/-- The error of a node that is no JSON value; what is said of it shows the node. -/
def ofForeign (g : Graph) (i : Nat) : Error :=
  match g.shown i with
  | some shown => .foreign shown
  | none => .tooLong

/-- The error that stands for an obstacle on a path of given steps. -/
def ofObstacle (steps : List Step) : Obstacle → Error
  | .unresolved done => .setback (.unresolved steps done)
  | .noSlot => .setback (.unassignable steps)
  | .noStep => .noSteps

/-- The error that stands for a path of given steps that stops in a graph. -/
def ofStop (g : Graph) (steps : List Step) : Graph.Stop → Error
  | .obstacle o => ofObstacle steps o
  | .foreign i => ofForeign g i

/-- The error that stands for a text that is not JSON. -/
def ofReading : Json.ReadError → Error
  | .tooManyDigits n => .tooManyDigits n
  | .fault f line column offset => .badPlainText f line column offset

/-- The error that stands for an outline without a graph. -/
def ofOutline : Outline.Fault → Error
  | .unreadable e => ofReading e
  | .containerKey kind => .containerKey kind

end Error

/-- The steps of a path that is given as a JSON value. -/
def Path.ofJson (v : Json) : Except Error (List Step) :=
  match v with
  | .string path =>
    match Path.parse path with
    | .ok steps => .ok steps
    | .error (.fault f) => .error (.setback (.malformed path f))
    | .error (.tooManyDigits n) => .error (.tooManyDigits n)
  | v => .error (.pathNotText v.typeName)

end JsonPaths
