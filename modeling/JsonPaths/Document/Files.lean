/-
JsonPaths/Document/Files.lean

Documents in files.

A file holds the UTF-8 form of JSON text.  Reading takes every kind of line end
for a line feed.  Saving writes the text under a temporary name beside the
target and then moves it over the target in one step.
-/
import JsonPaths.Document.Basic
import JsonPaths.Text.Newline

namespace JsonPaths.Document

/-! ### Reading -/

/-- The text of a file. -/
def fileText (files : Directory.Entries) (place : Location) : Except FileFault String :=
  match Directory.read place files with
  | .error f => .error (.storage f place)
  | .ok bytes =>
    match Text.Utf8.decode bytes with
    | .error f => .error (.encoding f)
    | .ok s => .ok (String.ofList (Text.unifyNewlines s))

/-- The JSON value in a file, which must not be null. -/
def fileValue (files : Directory.Entries) (place : Location) : Except Error Json :=
  match fileText files place with
  | .error (.storage .nulInName _) => .error (.file (.storage .nulInName place))
  | .error f => .error (.unreadableFile place f)
  | .ok s =>
    match Json.read s with
    | .error (.tooManyDigits n) => .error (.tooManyDigits n)
    | .error (.fault f line column offset) => .error (.badFile place f line column offset)
    | .ok .null => .error (.nullFile place)
    | .ok v => .ok v

/-- The document in a file, and the records of loading it. -/
def ofFile (config : Config) (options : Options) (files : Directory.Entries)
    (place : Location) : Except Error Document × List Record :=
  match fileValue files place with
  | .error e => (.error e, [])
  | .ok v =>
    (ofJson config options v,
      [⟨Log.debug, s!"loaded document from {String.ofList place.text}", none⟩])

/-! ### Saving -/

/-- What the temporary name adds to the name of the target. -/
def temporaryEnding : List Char := ".tmp".toList

/-- The text that is saved to a file.  A string has no parts to indent, so its
indentation does not matter. -/
def fileContent (d : Document) : Except Error String :=
  match d.value with
  | .string s => .ok (String.ofList (Json.stringText s) ++ "\n")
  | _ => d.savedText

/-- Saves a document to a file: the outcome, the files afterwards, and the
records. -/
def saveTo (d : Document) (files : Directory.Entries) (place : Location) :
    Except Error Unit × Directory.Entries × List Record :=
  match d.fileContent with
  | .error e => (.error e, files, [])
  | .ok text =>
    if place.name.isEmpty then (.error (.namelessFile place), files, [])
    else
      let temporary := place.addEnding temporaryEnding
      match Directory.write temporary (Text.Utf8.encode text.toList) files with
      | .error f => (.error (.file (.storage f temporary)), files, [])
      | .ok written =>
        match Directory.replace temporary place written with
        | .error f => (.error (.move f temporary place), written, [])
        | .ok moved =>
          (.ok (), moved,
            [⟨Log.debug, s!"saved document to {String.ofList place.text}", none⟩])

end JsonPaths.Document
