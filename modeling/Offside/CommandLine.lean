import Offside.Engine
import Offside.Json

/-!
# The command line

Compiles one template, from a file or from standard input, to markup, to a listing
of its lexemes or to a listing of its document, or compiles it into the cache. The
arguments are read in `CommandLine.read`; all else happens on a disk in
`CommandLine.run`, with a library that configurations are left to.
-/

set_option autoImplicit false

namespace Offside.CommandLine

/-- What a template is compiled to. -/
inductive Format where
  | markup
  | lexemes
  | document
deriving DecidableEq, Repr

/-- The format with the given name. -/
def Format.ofName? (name : String) : Option Format :=
  [("php", markup), ("tokens", lexemes), ("ast", document)].lookup name

/-- What the arguments ask for. -/
structure Invocation where
  path : Option String := none
  format : Option Format := none
  tabWidth : Option Nat := none
  configuration : Option String := none
  cacheDirectory : Option String := none
  cache : Bool := false
deriving DecidableEq, Repr

/-- A command line: a template to compile, a question about the command, or
nothing that makes sense. -/
inductive Request where
  | compile (invocation : Invocation) (path : String)
  | version
  | help
  | misuse
deriving DecidableEq, Repr

/-! ### Reading arguments -/

/-- The options that take a value. -/
inductive Slot where
  | format
  | tabWidth
  | configuration
  | cacheDirectory
deriving DecidableEq, Repr

/-- The width that a text stands for: a positive number below 2 to the 63. -/
def width? (value : String) : Option Nat := do
  let width ← Character.natOfDigits? value
  if 0 < width ∧ width < 0x8000000000000000 then some width else none

/-- A value that is not empty. -/
def nonempty? (value : String) : Option String :=
  if value = "" then none else some value

/-- Sets an option, unless it is set already or the value is wrong. -/
def Invocation.set? (i : Invocation) (slot : Slot) (value : String) : Option Invocation :=
  match slot, i.format, i.tabWidth, i.configuration, i.cacheDirectory with
  | .format, none, _, _, _ => (Format.ofName? value).map fun v => { i with format := some v }
  | .tabWidth, _, none, _, _ => (width? value).map fun v => { i with tabWidth := some v }
  | .configuration, _, _, none, _ =>
    (nonempty? value).map fun v => { i with configuration := some v }
  | .cacheDirectory, _, _, _, none =>
    (nonempty? value).map fun v => { i with cacheDirectory := some v }
  | _, _, _, _, _ => none

/-- Sets the path, unless it is set already. -/
def Invocation.setPath? (i : Invocation) (path : String) : Option Invocation :=
  match i.path with
  | none => some { i with path := some path }
  | some _ => none

/-- What an argument says. -/
inductive Argument where
  | path (path : String)
  /-- An option with its value. -/
  | setting (slot : Slot) (content : String)
  /-- An option whose value is the next argument. -/
  | awaiting (slot : Slot)
  | cache
  /-- A wish for more messages. -/
  | verbose
  | version
  | help
  /-- No option comes after this argument. -/
  | ending
  | unknown
deriving DecidableEq, Repr

/-- The options with long names that take a value. -/
def longSlot? (name : String) : Option Slot :=
  [("format", .format), ("tab-width", .tabWidth), ("config", .configuration),
    ("cache-dir", .cacheDirectory)].lookup name

/-- Reads an option with a long name, and its value if there is an equals sign. -/
def Argument.ofLong (body : List Char) : Argument :=
  match Character.upTo '=' body with
  | some (name, ⟨content, _⟩) =>
    match longSlot? (String.ofList name) with
    | some slot => .setting slot (String.ofList content)
    | none => .unknown
  | none =>
    let name := String.ofList body
    match longSlot? name with
    | some slot => .awaiting slot
    | none =>
      ([("cache", .cache), ("verbose", .verbose), ("version", .version),
        ("help", .help)].lookup name).getD .unknown

/-- Reads options of one letter. The rest of the argument behind an option that
takes a value is its value. -/
def Argument.ofShort : List Char → Argument
  | [] => .verbose
  | 'v' :: cs => ofShort cs
  | 'V' :: _ => .version
  | 'h' :: _ => .help
  | 'f' :: cs => valued .format cs
  | 'c' :: cs => valued .configuration cs
  | _ :: _ => .unknown
where
  /-- An option with the rest of its argument. -/
  valued (slot : Slot) : List Char → Argument
    | [] => .awaiting slot
    | '=' :: cs => .setting slot (String.ofList cs)
    | cs => .setting slot (String.ofList cs)

/-- Reads an argument. A dash by itself is a path. -/
def Argument.ofString (argument : String) : Argument :=
  match argument.toList with
  | ['-', '-'] => .ending
  | '-' :: '-' :: body => ofLong body
  | ['-'] => .path argument
  | '-' :: body => ofShort body
  | _ => .path argument

/-- What is asked for once all arguments are read. -/
def Invocation.request (i : Invocation) : Request :=
  match i.path with
  | none => .misuse
  | some path => if i.cache && i.format.isSome then .misuse else .compile i path

/-- Reads arguments behind the mark that ends options. -/
def readPaths (i : Invocation) : List String → Request
  | [] => i.request
  | path :: arguments =>
    match i.setPath? path with
    | some i => readPaths i arguments
    | none => .misuse

/-- Reads arguments from left to right. The first that makes no sense, or that
asks about the command, decides. `pending` is the option that waits for its value. -/
def readArguments (i : Invocation) (pending : Option Slot) : List String → Request
  | [] => if pending.isSome then .misuse else i.request
  | argument :: arguments =>
    match pending, Argument.ofString argument with
    | none, .path path =>
      match i.setPath? path with
      | some i => readArguments i none arguments
      | none => .misuse
    | some slot, .path content | none, .setting slot content =>
      match i.set? slot content with
      | some i => readArguments i none arguments
      | none => .misuse
    | none, .awaiting slot => readArguments i (some slot) arguments
    | none, .cache =>
      if i.cache then .misuse else readArguments { i with cache := true } none arguments
    | none, .verbose => readArguments i none arguments
    | none, .version => .version
    | none, .help => .help
    | none, .ending => readPaths i arguments
    | _, _ => .misuse

/-- Reads the arguments of a command. -/
def read (arguments : List String) : Request :=
  readArguments {} none arguments

/-! ### Compiling -/

/-- The path that stands for standard input. -/
def stdinPath : String :=
  "-"

/-- The configuration file of a project. -/
def projectFile : String :=
  "slimc.toml"

/-- The layers of the configuration: the project's, the file that was asked for,
and the options. -/
def Invocation.layers (L : Configuration.Library) (i : Invocation) :
    List (Configuration.Layer L) :=
  .optionalFile (.ofString projectFile) ::
    (i.configuration.toList.map fun path => .file (.ofString path)) ++
    (i.tabWidth.toList.map fun width => .override "render.tab_width" (L.ofNumber width)) ++
    i.cacheDirectory.toList.map fun path => .override "cache.directory" (L.ofText path)

/-- The source of a template and the name it has in errors. `input` is the text on
standard input, if it is text. -/
def readSource (disk : Disk) (input : Option String) (path : String) :
    Except Error (String × String) :=
  if path = stdinPath then
    match input with
    | some source => .ok (source, Engine.inputName)
    | none => .error (.file (.ofString stdinPath) .notText)
  else (Engine.readTemplate disk (.ofString path)).map fun source => (source, path)

/-- What the command prints for a template, and the disk it leaves behind. -/
def compile (L : Configuration.Library) (disk : Disk) (input : Option String) (i : Invocation)
    (path : String) : Except Error String × Disk :=
  match (Configuration.load L disk (i.layers L)).mapError Error.configuration with
  | .error error => (.error error, disk)
  | .ok configuration =>
    match Engine.ofConfiguration configuration with
    | .error error => (.error error, disk)
    | .ok engine =>
      if i.cache then
        if path = stdinPath then (.error (.notAFile (.ofString path)), disk)
        else
          let (cached, disk) := engine.cache disk (.ofString path)
          (cached.map Path.text, disk)
      else
        let output : Except Error String := do
          let (source, name) ← readSource disk input path
          let layout := engine.renderer.layout
          match i.format.getD .markup with
          | .lexemes =>
            let lexemes ← (tokenize layout source).mapError fun e => Error.ofParse name (.scan e)
            return (Json.array (lexemes.map Lexeme.toJson)).pretty
          | .document =>
            let root ← (parse layout source).mapError (Error.ofParse name)
            return root.toJson.pretty
          | .markup => engine.renderNamed name source
        (output, disk)

/-- What a command leaves behind. -/
structure Outcome where
  /-- The exit code: 0 for success, 1 for an error, 2 for misuse. -/
  exit : Nat
  stdout : String := ""
  stderr : String := ""
deriving DecidableEq, Repr

/-- The name and the version of the command. -/
def versionText : String :=
  "slimc 0.1.0"

/-- How the command is used. -/
def helpText : String :=
  "Compile indentation-based templates into PHP\n\n" ++
  "Usage: slimc [OPTIONS] <path>\n\n" ++
  "  <path>                  Path to the template, or '-' to read from stdin\n" ++
  "  -f, --format <format>   Output format: php, tokens or ast\n" ++
  "      --tab-width <n>     Spaces per tab in the template and per level in the output\n" ++
  "  -c, --config <file>     Configuration file layered over the defaults and ./slimc.toml\n" ++
  "      --cache             Compile into the cache directory and print the cached file's path\n" ++
  "      --cache-dir <dir>   Directory holding compiled templates\n" ++
  "  -v, --verbose           Log more detail to stderr (repeatable)\n" ++
  "  -h, --help              Print help\n" ++
  "  -V, --version           Print version"

/-- Runs a command on a disk. -/
def run (L : Configuration.Library) (disk : Disk) (input : Option String)
    (arguments : List String) : Outcome × Disk :=
  match read arguments with
  | .misuse => ({ exit := 2, stderr := helpText ++ "\n" }, disk)
  | .version => ({ exit := 0, stdout := versionText ++ "\n" }, disk)
  | .help => ({ exit := 0, stdout := helpText ++ "\n" }, disk)
  | .compile i path =>
    match compile L disk input i path with
    | (.ok output, disk) => ({ exit := 0, stdout := output ++ "\n" }, disk)
    | (.error error, disk) => ({ exit := 1, stderr := "error: " ++ error.message ++ "\n" }, disk)

end Offside.CommandLine
