import Offside.CommandLine
import Offside.Configuration.Plain

/-!
# The program

Loads the files that a command line names, runs the command on them, and writes
back what it changed.
-/

set_option autoImplicit false

namespace Offside.Main

/-- The disk with what is at a path of the file system, put at a location. -/
def loadAt (disk : Disk) (location : Disk.Location) (path : String) : IO Disk := do
  let file := (← IO.currentDir) / path
  if ← file.isDir then
    return disk.put location (.directory 0 true)
  else if ← file.pathExists then
    let bytes ← IO.FS.readBinFile file
    let time := (← file.metadata).modified
    let modified := time.sec.toNat * 1000000000 + time.nsec.toNat
    let content : Disk.Content :=
      match String.fromUTF8? bytes with
      | some text => .text text
      | none => .unreadable .notText
    return disk.put location (.file content modified)
  else
    return disk

/-- The disk with all that a path leads through. -/
def load (disk : Disk) (path : Path) : IO Disk := do
  let parts := Disk.parts path
  (List.range parts.length).foldlM
    (fun disk n =>
      let way := parts.take (n + 1)
      loadAt disk (way.foldl Disk.step (Disk.start path)) (Disk.ofParts way).text)
    disk

/-- Writes the files that differ between two disks. -/
def store (before after : Disk) : IO Unit := do
  for (location, entry) in after.entries do
    match entry with
    | .file (.text text) _ =>
      if before.at? location ≠ some entry then
        IO.FS.writeFile (Disk.ofParts location).text text
    | _ => pure ()

/-- The library that configurations are left to. -/
def library : Configuration.Library :=
  .plain

/-- The paths of the files that can configure a command. -/
def configurationPaths (i : CommandLine.Invocation) : List Path :=
  (CommandLine.projectFile :: i.configuration.toList).flatMap fun path =>
    library.candidates (.ofString path)

/-- The files that a command works on. -/
def snapshot (i : CommandLine.Invocation) (path : Path) : IO Disk := do
  let disk ← (configurationPaths i ++ [path]).foldlM load {}
  match Configuration.load library disk (i.layers library) with
  | .ok { cacheDirectory := some directory, .. } =>
    let directory := Path.ofString directory
    [directory, Engine.cachePath directory path].foldlM load disk
  | _ => return disk

/-- The text on standard input, if it is text. -/
def readInput : IO (Option String) := do
  try
    return some (← (← IO.getStdin).readToEnd)
  catch _ => return none

/-- Runs a command and returns its exit code. -/
def run (arguments : List String) : IO UInt32 := do
  let (disk, input) ←
    match CommandLine.read arguments with
    | .compile i path => do
      let input ← if path = CommandLine.stdinPath then readInput else pure none
      pure (← snapshot i (.ofString path), input)
    | _ => pure ({}, none)
  let (outcome, after) := CommandLine.run library disk input arguments
  try
    store disk after
    IO.print outcome.stdout
    IO.eprint outcome.stderr
    return outcome.exit.toUInt32
  catch failure =>
    IO.eprintln ("error: " ++ toString failure)
    return 1

end Offside.Main

/-- The command. -/
def main (arguments : List String) : IO UInt32 :=
  Offside.Main.run arguments
