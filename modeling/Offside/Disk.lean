import Offside.Entries
import Offside.Path

/-!
# Disks

The files and directories a command works on, by location, each with the time of
its last change. A path leads from the working directory, which always exists,
through directories to a location (`Disk.locate?`). Time passes with every write.

A disk may refuse to be written to, for reasons that are not seen in what is on it.
-/

set_option autoImplicit false

namespace Offside

/-- Why a file cannot be read or written. -/
inductive Disk.Fault where
  | notText
  | notFound
  | isDirectory
  /-- Anything else that the system says. -/
  | other (message : String)
deriving DecidableEq, Repr

/-- The text of the fault. -/
def Disk.Fault.message : Disk.Fault → String
  | notText => "stream did not contain valid UTF-8"
  | notFound => "No such file or directory (os error 2)"
  | isDirectory => "Is a directory (os error 21)"
  | other message => message

/-- What is in a file: a text, or something that cannot be read. -/
inductive Disk.Content where
  | text (value : String)
  | unreadable (fault : Disk.Fault)
deriving DecidableEq, Repr

/-- What reading a file comes to. -/
def Disk.Content.read : Disk.Content → Except Disk.Fault String
  | text value => .ok value
  | unreadable fault => .error fault

/-- What a path leads to. -/
inductive Disk.Entry where
  /-- A file: what is in it, and the time of its last change. -/
  | file (content : Disk.Content) (modified : Nat)
  /-- A directory: the time it was made, and whether it can be written to. -/
  | directory (modified : Nat) (writable : Bool)
deriving DecidableEq, Repr

/-- The time of the last change. -/
def Disk.Entry.modified : Disk.Entry → Nat
  | file _ modified => modified
  | directory modified _ => modified

/-- The steps of a path from the working directory, outermost first. -/
abbrev Disk.Location : Type :=
  List Path

/-- Files and directories by location, and the present time. -/
structure Disk where
  entries : List (Disk.Location × Disk.Entry) := []
  clock : Nat := 1000000000
  /-- What is answered to a write that is refused. -/
  refusal : Option Disk.Fault := none
deriving DecidableEq, Repr

namespace Disk

/-! ### Paths -/

open Path (dot slash)

/-- The name of the directory that a directory lies in. -/
def outer : Path :=
  [dot, dot]

/-- The parts of a path between slashes. -/
def parts (path : Path) : List Path :=
  path.splitOn slash

/-- The path with the given parts. -/
def ofParts (parts : List Path) : Path :=
  [slash].intercalate parts

/-- Where a path starts: at the root, or else in the working directory. -/
def start (path : Path) : Location :=
  if path.head? = some slash then [[slash]] else []

/-- Goes one step from a location. -/
def step (location : Location) (part : Path) : Location :=
  if part = [] ∨ part = [dot] then location
  else if part = outer then
    if location.getLast? = none ∨ location.getLast? = some outer then location ++ [outer]
    else if location.getLast? = some [slash] then location
    else location.dropLast
  else location ++ [part]

/-- The parts of a path up to its last name. -/
def namedParts (path : Path) : List Path :=
  ((parts path).reverse.dropWhile fun part => part = [] ∨ part = [dot]).reverse

/-- The last name in a path. -/
def fileName (path : Path) : Path :=
  (namedParts path).getLastD []

/-- The path with an ending behind its last name, if it ends in a name. -/
def withEnding? (path ending : Path) : Option Path :=
  if fileName path = [] ∨ fileName path = outer then none
  else some (ofParts (namedParts path) ++ ending)

/-- The path of a file in a directory. -/
def join (directory name : Path) : Path :=
  if directory.getLast? = some slash then directory ++ name else directory ++ slash :: name

/-! ### Reading -/

/-- Whether a location is the working directory, a directory it lies in, or the
root. -/
def alwaysExists (location : Location) : Bool :=
  location.all (· = outer) || location = [[slash]]

/-- What is at a location. -/
def at? (d : Disk) (location : Location) : Option Entry :=
  (d.entries.lookup location).or
    (if alwaysExists location then some (.directory 0 true) else none)

/-- Whether there is a directory at a location. -/
def isDirectoryAt (d : Disk) (location : Location) : Bool :=
  d.at? location matches some (.directory _ _)

/-- Goes from a location along the parts of a path. Steps lead on from directories
only. -/
def walk? (d : Disk) (location : Location) : List Path → Option Location
  | [] => some location
  | part :: parts =>
    if d.isDirectoryAt location then d.walk? (step location part) parts else none

/-- The location that a path leads to. There may be nothing yet, but it is in a
directory. The empty path leads nowhere. -/
def locate? (d : Disk) (path : Path) : Option Location :=
  if path = [] then none else d.walk? (start path) (parts path)

/-- What a path leads to. -/
def get? (d : Disk) (path : Path) : Option Entry :=
  (d.locate? path).bind d.at?

/-- Whether a path leads to a file. -/
def isFile (d : Disk) (path : Path) : Bool :=
  d.get? path matches some (.file _ _)

/-- Whether a path leads to a directory. -/
def isDirectory (d : Disk) (path : Path) : Bool :=
  d.get? path matches some (.directory _ _)

/-- Whether a path leads to a directory that can be written to. -/
def isWritable (d : Disk) (path : Path) : Bool :=
  d.get? path matches some (.directory _ true)

/-- The time of the last change of what a path leads to. -/
def modified? (d : Disk) (path : Path) : Option Nat :=
  (d.get? path).map Entry.modified

/-- What reading a file comes to, if the path leads to one. -/
def read? (d : Disk) (path : Path) : Option (Except Fault String) :=
  match d.get? path with
  | some (.file content _) => some content.read
  | _ => none

/-! ### Writing -/

/-- Sets what is at a location. -/
def put (d : Disk) (location : Location) (entry : Entry) : Disk :=
  { d with entries := Entries.set location entry d.entries }

/-- Makes the directories on a way from a location, up to the first file in the
way. -/
def makeWay (d : Disk) (location : Location) : List Path → Disk
  | [] => d
  | part :: parts =>
    let next := step location part
    match d.at? next with
    | some (.directory _ _) => d.makeWay next parts
    | some (.file _ _) => d
    | none => (d.put next (.directory d.clock true)).makeWay next parts

/-- Makes a directory and all directories on the way to it. -/
def makeDirectory (d : Disk) (path : Path) : Disk :=
  if path = [] then d
  else
    let d' := d.makeWay (start path) (parts path)
    { d' with clock := d.clock + 1 }

/-- Allows or forbids to write to a directory. -/
def setWritable (d : Disk) (path : Path) (writable : Bool) : Disk :=
  match d.locate? path, d.get? path with
  | some location, some (.directory modified _) => d.put location (.directory modified writable)
  | _, _ => d

/-- Writes a file, unless this is refused. Unless a time is given, it is changed now. -/
def write (d : Disk) (path : Path) (content : Content) (modified : Option Nat) :
    Except Fault Disk :=
  match d.refusal, d.locate? path with
  | some fault, _ => .error fault
  | none, none => .error .notFound
  | none, some location =>
    if d.isDirectoryAt location then .error .isDirectory
    else
      let d' := d.put location (.file content (modified.getD d.clock))
      .ok { d' with clock := d.clock + 1 }

/-- Writes a file after making the directories on the way to it. -/
def writeDeep (d : Disk) (path : Path) (content : Content) (modified : Option Nat) :
    Except Fault Disk :=
  (d.makeWay (start path) (parts path).dropLast).write path content modified

end Disk

end Offside
