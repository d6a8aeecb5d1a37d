/-
JsonPaths/Document/Basic.lean

Documents.

A document keeps a JSON value that is not null, two flags, an indentation and
the leaf index of its value as far as one has been built and the value has not
been assigned to since.  Operations are functions from a document to an
`Outcome`: the answer or the error, the document afterwards, and the log records
that were issued.  A setback is logged unless diagnostics are suppressed, and
raised unless errors are; all other errors are raised and not logged.
-/
import JsonPaths.Error
import JsonPaths.Value.Leaves

namespace JsonPaths

/-! ### Records and outcomes -/

/-- A log record; the subject is what the record is about, if it says so. -/
structure Record where
  level : Int
  message : String
  subject : Option String
  deriving DecidableEq, Repr

/-- A document.  Marks from `next` on are not in use in `root`. -/
structure Document where
  root : Shared
  next : Nat
  suppressErrors : Flag
  suppressDiagnostics : Flag
  indent : Indent
  index : Option (LeafIndex Unit)

/-- What an operation on a document comes to. -/
structure Outcome (α : Type) where
  result : Except Error α
  document : Document
  log : List Record

/-- Settings of a new document; one that is not given has its default. -/
structure Options where
  suppressErrors : Option Flag
  suppressDiagnostics : Option Flag
  indent : Option Indent

namespace Document

/-! ### Making a document -/

/-- The JSON value of a document. -/
def value (d : Document) : Json := d.root.erase

/-- A document of a JSON value, with defaults from a configuration. -/
def ofJson (config : Config) (options : Options) (v : Json) : Except Error Document :=
  match v with
  | .null => .error .nullDocument
  | v =>
    let (root, next) := v.withMarks 0
    .ok {
      root
      next
      suppressErrors := options.suppressErrors.getD config.suppressErrors
      suppressDiagnostics := options.suppressDiagnostics.getD config.suppressDiagnostics
      indent := options.indent.getD config.indent
      index := none }

/-- The JSON value of a candidate for a role. -/
def checked (role : Role) (c : Candidate) : Except Error Json :=
  c.check.mapError (Error.ofProblem role)

/-- A document of a candidate value. -/
def ofCandidate (config : Config) (options : Options) (c : Candidate) :
    Except Error Document := do
  ofJson config options (← checked .document c)

/-- The document that a JSON text describes; a text that is no text is refused. -/
def ofText (config : Config) (options : Options) (text : Json) : Except Error Document :=
  match text with
  | .string s =>
    match Json.read s with
    | .ok v => ofJson config options v
    | .error (.tooManyDigits n) => .error (.tooManyDigits n)
    | .error (.fault f line column offset) => .error (.badText f line column offset)
  | v => .error (.textNotText v.typeName)

/-! ### Reporting -/

/-- The outcome of an operation that goes well without a record. -/
def done {α : Type} (d : Document) (a : α) : Outcome α := ⟨.ok a, d, []⟩

/-- The outcome of an error in an operation.  A setback is reported as the flags
say, and `fallback` is the answer if it is not raised. -/
def settle {α : Type} (d : Document) (operation subject : String) (fallback : α)
    (e : Error) : Outcome α :=
  match e with
  | .setback s =>
    let log := if d.suppressDiagnostics.on then []
      else [⟨Log.warning, s!"{operation} {subject} failed: {s.message}", some subject⟩]
    ⟨if d.suppressErrors.on then .ok fallback else .error e, d, log⟩
  | e => ⟨.error e, d, []⟩

/-- The text of a path that is given as a JSON value. -/
def pathText : Json → String
  | .string s => s
  | _ => ""

/-! ### Operations -/

/-- The text of the value that a path leads to.  A value that has no text is an error
whatever the flags say. -/
def query (d : Document) (path : Json) : Outcome String :=
  let found : Except Error Json := do
    let steps ← Path.ofJson path
    (d.root.query steps).mapError (Error.ofObstacle steps)
  match found with
  | .ok v => ⟨Error.orTooLong (Json.compactText v), d, []⟩
  | .error e => d.settle "query" (pathText path) "" e

/-- The document with a value assigned at a path.  Without a step the value
becomes the root, which must not be null. -/
def assigned (d : Document) (steps : List Step) (v : Json) : Except Error Document :=
  let (new, next) := v.withMarks d.next
  match steps with
  | [] =>
    match v with
    | .null => .error .nullDocument
    | _ => .ok { d with root := new, next, index := none }
  | steps =>
    match d.root.assign steps new with
    | .ok root => .ok { d with root, next, index := none }
    | .error o => .error (Error.ofObstacle steps o)

/-- Assigns a checked value at a path. -/
def setJson (d : Document) (path : Json) (v : Json) : Outcome Bool :=
  match (do d.assigned (← Path.ofJson path) v : Except Error Document) with
  | .ok e => ⟨.ok true, e, [⟨Log.debug, s!"set {pathText path}", none⟩]⟩
  | .error e => d.settle "set_path" (pathText path) false e

/-- Assigns a candidate value at a path; the value is checked before the path is
read. -/
def setPath (d : Document) (path : Json) (c : Candidate) : Outcome Bool :=
  match checked .assigned c with
  | .ok v => d.setJson path v
  | .error e => ⟨.error e, d, []⟩

/-- The document with its leaf index built. -/
def indexed (d : Document) : Document := { d with index := some d.value.leafIndex }

/-- The leaf index, which is built anew. -/
def paths (d : Document) : Outcome (LeafIndex Unit) :=
  d.indexed.done d.value.leafIndex

/-- The paths of all leaves that equal a checked value, of which there must be
one.  The leaf index is built anew.  A report of a search names the value, so one for
a value that has no text is an error whatever the flags say. -/
def findJson (d : Document) (v : Json) : Outcome (List String) :=
  match d.value.leafIndex.find v with
  | [] =>
    match Json.write .spaced v with
    | none => ⟨.error .tooLong, d.indexed, []⟩
    | some subject => d.indexed.settle "get_paths_to_value" subject [] (.absent v)
  | ps => d.indexed.done ps

/-- The paths of all leaves that equal a candidate value. -/
def find (d : Document) (c : Candidate) : Outcome (List String) :=
  match checked .searched c with
  | .ok v => d.findJson v
  | .error e => ⟨.error e, d, []⟩

/-! ### Text -/

/-- The layout of saved text, if the indentation can be used. -/
def layout (d : Document) : Except Error Json.Layout :=
  match d.indent.margin with
  | .error f => .error (.indent f)
  | .ok none => .ok .spaced
  | .ok (some margin) => .ok (.indented margin)

/-- The text that is saved: the value and a line feed. -/
def savedText (d : Document) : Except Error String := do
  let layout ← d.layout
  let text ← Error.orTooLong (Json.write layout d.value)
  return text ++ "\n"

/-- The text that shows a document. -/
def shown (d : Document) : Option String := do
  let errors ← d.suppressErrors.shown
  let diagnostics ← d.suppressDiagnostics.shown
  return s!"JsonDocument(suppress_errors={errors}, suppress_diagnostics={diagnostics})"

end Document

end JsonPaths
