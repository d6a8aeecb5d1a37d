/-
JsonPaths/Storage/Directory.lean

Files and directories.

All directories hang together in one tree below a root, and the current
directory is one of them.  A location is resolved part by part: every part but
the last must be a directory, and two dots lead to the directory above.  The
operations are the steps that a system takes: reading and writing a file, making
a directory, and moving a file over another name in one step.  A step that fails
changes nothing.
-/
import JsonPaths.Assoc
import JsonPaths.Storage.Location

namespace JsonPaths

/-- What stands under a name: a file with its bytes, or a directory. -/
inductive Entry where
  | file (bytes : List UInt8)
  | directory (entries : List (List Char × Entry))
  deriving Inhabited

/-- Why a step on files fails. -/
inductive StorageFault where
  | missing
  | notDirectory
  | isDirectory
  | taken
  | busy
  | nameTooLong
  | nulInName
  deriving DecidableEq, Repr

/-- The words of a fault, with its number if it has one. -/
def StorageFault.words : StorageFault → String
  | .missing => "[Errno 2] No such file or directory"
  | .notDirectory => "[Errno 20] Not a directory"
  | .isDirectory => "[Errno 21] Is a directory"
  | .taken => "[Errno 17] File exists"
  | .busy => "[Errno 16] Device or resource busy"
  | .nameTooLong => "[Errno 36] File name too long"
  | .nulInName => "embedded null byte"

namespace Directory

/-- Entries by their names. -/
abbrev Entries := List (List Char × Entry)

/-! ### Entries -/

/-- The entries without the one of a name. -/
def remove (name : List Char) (d : Entries) : Entries := d.filter (·.1 != name)

/-- The entry that a row of names leads to from the root. -/
def entryAt (names : List (List Char)) (d : Entries) : Option Entry :=
  match names with
  | [] => some (.directory d)
  | p :: ps =>
    match d.lookup p with
    | some (.directory e) => entryAt ps e
    | some (.file bytes) => if ps.isEmpty then some (.file bytes) else none
    | none => none

/-- Changes the directory that a row of names leads to from the root by `f`. -/
def change {α : Type} (f : Entries → Except StorageFault (α × Entries)) :
    List (List Char) → Entries → Except StorageFault (α × Entries)
  | [], d => f d
  | p :: ps, d =>
    match d.lookup p with
    | none => .error .missing
    | some (.file _) => .error .notDirectory
    | some (.directory e) =>
      (change f ps e).map fun (a, e) => (a, Assoc.put p (.directory e) d)

/-! ### The current directory -/

/-- The names from the root to the current directory.  What they are is not in
view, so both are the empty name, which no location has for a part. -/
def current : List (List Char) := [[], []]

/-- A root with an empty current directory. -/
def initial : Entries := [([], .directory [([], .directory [])])]

/-- The entries of the current directory. -/
def here (root : Entries) : Entries :=
  match entryAt current root with
  | some (.directory d) => d
  | _ => []

/-! ### Resolving locations -/

/-- The greatest number of bytes in a part of a location. -/
def partLimit : Nat := 255

/-- The greatest number of bytes in the name of a location. -/
def nameLimit : Nat := 4095

/-- The number of bytes of a text. -/
def byteCount (s : List Char) : Nat := (String.ofList s).utf8ByteSize

/-- The directory that parts lead to from the directory with names `start`; the
answer is its names from the root. -/
def openDirectory (root : Entries) (start : List (List Char)) :
    List (List Char) → Except StorageFault (List (List Char))
  | [] => .ok start
  | p :: ps =>
    if p = Location.above then openDirectory root start.dropLast ps
    else if partLimit < byteCount p then .error .nameTooLong
    else
      match entryAt (start ++ [p]) root with
      | none => .error .missing
      | some (.file _) => .error .notDirectory
      | some (.directory _) => openDirectory root (start ++ [p]) ps

/-- What a location is: a directory that is there without being an entry of a
name, or an entry of a directory, present or not. -/
inductive Target where
  | directory
  | entry (parent : List (List Char)) (name : List Char)
  deriving DecidableEq, Repr

/-- What a location is.  A name with a null character is no name at all. -/
def resolve (root : Entries) (l : Location) : Except StorageFault Target :=
  if l.text.contains '\x00' then .error .nulInName
  else if nameLimit < byteCount l.text then .error .nameTooLong
  else
    match openDirectory root (if l.slashes = 0 then current else []) l.parts.dropLast with
    | .error f => .error f
    | .ok parent =>
      if l.name = [] ∨ l.name = Location.above then .ok .directory
      else if partLimit < byteCount l.name then .error .nameTooLong
      else .ok (.entry parent l.name)

/-! ### Steps -/

/-- The bytes of the file at a location. -/
def read (l : Location) (root : Entries) : Except StorageFault (List UInt8) :=
  match resolve root l with
  | .error f => .error f
  | .ok .directory => .error .isDirectory
  | .ok (.entry parent name) =>
    match entryAt (parent ++ [name]) root with
    | none => .error .missing
    | some (.directory _) => .error .isDirectory
    | some (.file bytes) => .ok bytes

/-- Puts a file into a directory, over a file of its name. -/
def putFile (name : List Char) (e : Entry) (d : Entries) :
    Except StorageFault (Unit × Entries) :=
  match d.lookup name with
  | some (.directory _) => .error .isDirectory
  | _ => .ok ((), Assoc.put name e d)

/-- Puts an empty directory into a directory. -/
def putDirectory (name : List Char) (d : Entries) : Except StorageFault (Unit × Entries) :=
  if (d.lookup name).isSome then .error .taken
  else .ok ((), Assoc.put name (.directory []) d)

/-- Takes an entry out of a directory. -/
def takeEntry (name : List Char) (d : Entries) : Except StorageFault (Entry × Entries) :=
  match d.lookup name with
  | none => .error .missing
  | some e => .ok (e, remove name d)

/-- The tree after a file with the given bytes has been written. -/
def write (l : Location) (bytes : List UInt8) (root : Entries) :
    Except StorageFault Entries :=
  match resolve root l with
  | .error f => .error f
  | .ok .directory => .error .isDirectory
  | .ok (.entry parent name) => (change (putFile name (.file bytes)) parent root).map (·.2)

/-- The tree after an empty directory has been made. -/
def make (l : Location) (root : Entries) : Except StorageFault Entries :=
  match resolve root l with
  | .error f => .error f
  | .ok .directory => .error .taken
  | .ok (.entry parent name) => (change (putDirectory name) parent root).map (·.2)

/-- The tree after the file at one location has been moved to another one, over
the file that may be there. -/
def replace (source target : Location) (root : Entries) : Except StorageFault Entries := do
  match ← resolve root source, ← resolve root target with
  | .entry parent name, .entry parent' name' =>
    let (e, root) ← change (takeEntry name) parent root
    let (_, root) ← change (putFile name' e) parent' root
    return root
  | _, _ => .error .busy

/-- The names of the entries of the current directory, in order of their code
points. -/
def names (root : Entries) : List String :=
  ((here root).map fun p => String.ofList p.1).mergeSort (fun a b => a ≤ b)

end Directory

end JsonPaths
