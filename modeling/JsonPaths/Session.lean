/-
JsonPaths/Session.lean

Sessions: documents by name, files, defaults and logging.

A session is a value, and a command leads from one session to the next with an
answer.  A record that is issued counts if its level passes the logger; each
that counts is printed by every console that is attached.  Configuring the log
sets the level of the logger and attaches a console unless one is attached; a
level that does not exist is refused before either.
-/
import JsonPaths.Document.Files
import JsonPaths.Log.Console

namespace JsonPaths

/-- A session. -/
structure Session where
  config : Config
  documents : List (String × Document)
  files : Directory.Entries
  logLevel : Int
  consoles : List Log.Console

/-- A change of the defaults: what is not given stays. -/
structure ConfigChange where
  suppressErrors : Option Flag
  suppressDiagnostics : Option Flag
  indent : Option Indent
  logLevel : Option Log.LevelRequest

/-- A command to a session.  Values come as outlines, and what an outline stands
for is found when the command is run. -/
inductive Command where
  | create (value : Outline) (options : Options)
  | fromText (text : Json) (options : Options)
  | load (file : Location) (options : Options)
  | query (path : Json)
  | set (path : Json) (value : Outline)
  | paths
  | find (value : Outline)
  | save
  | saveTo (file : Location)
  | describe
  | flags (options : Options)
  | configure (change : ConfigChange)
  | logging (level : Option Log.LevelRequest)
  | write (file : Location) (bytes : List UInt8)
  | read (file : Location)
  | makeDirectory (file : Location)
  | list

/-- What a command returns. -/
inductive Reply where
  | nothing
  | text (s : String)
  | truth (b : Bool)
  | index (index : LeafIndex Unit)
  | names (l : List String)
  | logger (level : Json)

/-- The answer to a command: what it returns or the error, the records that
count, the lines printed on the console, and the document in question and the
number of consoles as they are afterwards. -/
structure Answer where
  result : Except Error Reply
  log : List Record
  console : List Styled
  document : Option Document
  consoles : Nat

namespace Session

/-- The session at the start: defaults, no documents, no files, no console. -/
def initial : Session := ⟨.default, [], Directory.initial, 0, []⟩

/-! ### Single commands -/

/-- The session with a document made, or left as it is. -/
def adopt (s : Session) (name : String) (d : Except Error Document) :
    Except Error Reply × Session :=
  match d with
  | .ok d => (.ok .nothing, { s with documents := Assoc.put name d s.documents })
  | .error e => (.error e, s)

/-- Runs an operation on the document of a name, if there is one. -/
def onDocument {α : Type} (s : Session) (name : String) (reply : α → Reply)
    (operation : Document → Outcome α) : Except Error Reply × Session × List Record :=
  match s.documents.lookup name with
  | none => (.error (.noDocument name), s, [])
  | some d =>
    let o := operation d
    (o.result.map reply, { s with documents := Assoc.put name o.document s.documents }, o.log)

/-- Runs an operation on a document with the value that an outline stands for. -/
def withValue {α : Type} (value : Outline) (operation : Document → Candidate → Outcome α)
    (d : Document) : Outcome α :=
  match value.candidate with
  | .error f => ⟨.error (.ofOutline f), d, []⟩
  | .ok c => operation d c

/-- A document of the value that an outline stands for. -/
def newDocument (config : Config) (options : Options) (value : Outline) :
    Except Error Document :=
  match value.candidate with
  | .error f => .error (.ofOutline f)
  | .ok c => Document.ofCandidate config options c

/-- Settings of a document changed; what is not given stays. -/
def changeFlags (options : Options) (d : Document) : Document :=
  { d with
    suppressErrors := options.suppressErrors.getD d.suppressErrors
    suppressDiagnostics := options.suppressDiagnostics.getD d.suppressDiagnostics
    indent := options.indent.getD d.indent }

/-- Defaults changed; what is not given stays. -/
def changeConfig (change : ConfigChange) (c : Config) : Config where
  suppressErrors := change.suppressErrors.getD c.suppressErrors
  suppressDiagnostics := change.suppressDiagnostics.getD c.suppressDiagnostics
  indent := change.indent.getD c.indent
  logLevel := change.logLevel.getD c.logLevel

/-- The level of a logger as it was asked for. -/
def shownLevel (request : Log.LevelRequest) (n : Int) : Json :=
  match request with
  | .truth b => .bool b
  | _ => .int n

/-- A console attached, unless there is one. -/
def attachConsole (s : Session) : Session :=
  if s.consoles.isEmpty then { s with consoles := s.consoles ++ [.plain] } else s

/-- The logger set to a level, or to the default one, and a console attached. -/
def configureLogging (s : Session) (level : Option Log.LevelRequest) :
    Except Error Reply × Session :=
  let request := level.getD s.config.logLevel
  match request.resolve with
  | .ok n =>
    (.ok (.logger (shownLevel request n)), { s with logLevel := n }.attachConsole)
  | .error f => (.error (.level f), s)

/-- The files after a step, or left as they are. -/
def storeFiles (s : Session) (file : Location)
    (files : Except StorageFault Directory.Entries) : Except Error Reply × Session :=
  match files with
  | .ok files => (.ok .nothing, { s with files })
  | .error f => (.error (.file (.storage f file)), s)

/-- Runs a command on the document of a name: what it returns, the session
afterwards, and the records it issued. -/
def run (s : Session) (name : String) :
    Command → Except Error Reply × Session × List Record
  | .create value options =>
    let (r, s) := s.adopt name (newDocument s.config options value)
    (r, s, [])
  | .fromText text options =>
    let (r, s) := s.adopt name (Document.ofText s.config options text)
    (r, s, [])
  | .load file options =>
    let (d, log) := Document.ofFile s.config options s.files file
    let (r, s) := s.adopt name d
    (r, s, log)
  | .query path => s.onDocument name .text (·.query path)
  | .set path value => s.onDocument name .truth (withValue value (·.setPath path ·))
  | .paths => s.onDocument name .index (·.paths)
  | .find value => s.onDocument name .names (withValue value Document.find)
  | .save => s.onDocument name .text fun d => ⟨d.savedText, d, []⟩
  | .saveTo file =>
    match s.documents.lookup name with
    | none => (.error (.noDocument name), s, [])
    | some d =>
      let (r, files, log) := d.saveTo s.files file
      (r.map fun _ => .nothing, { s with files }, log)
  | .describe => s.onDocument name .text fun d => ⟨Error.orTooLong d.shown, d, []⟩
  | .flags options => s.onDocument name (fun _ => .nothing) fun d =>
    (changeFlags options d).done ()
  | .configure change =>
    let config := changeConfig change s.config
    ((Error.orTooLong config.shown).map .text, { s with config }, [])
  | .logging level =>
    let (r, s) := s.configureLogging level
    (r, s, [])
  | .write file bytes =>
    let (r, s) := s.storeFiles file (Directory.write file bytes s.files)
    (r, s, [])
  | .read file =>
    ((Document.fileText s.files file).mapError Error.file |>.map .text, s, [])
  | .makeDirectory file =>
    let (r, s) := s.storeFiles file (Directory.make file s.files)
    (r, s, [])
  | .list => (.ok (.names (Directory.names s.files)), s, [])

/-! ### Steps -/

/-- What the consoles print of records, one record after the other.  Without a console it
is nothing; that such records have their bare message written to the stream of errors is
left out. -/
def lines (s : Session) (log : List Record) : List Styled :=
  log.flatMap fun r => s.consoles.flatMap (·.print r.level r.message.toList r.subject)

/-- The session after a command, and the answer. -/
def step (s : Session) (name : String) (c : Command) : Session × Answer :=
  let (result, after, issued) := s.run name c
  let log := issued.filter fun r => Log.passes after.logLevel r.level
  (after, {
    result
    log
    console := after.lines log
    document := after.documents.lookup name
    consoles := after.consoles.length })

/-- The session after commands in a row, and their answers. -/
def runAll (s : Session) : List (String × Command) → Session × List Answer
  | [] => (s, [])
  | (name, c) :: cs =>
    let (s, a) := s.step name c
    let (s, as) := runAll s cs
    (s, a :: as)

end Session

end JsonPaths
