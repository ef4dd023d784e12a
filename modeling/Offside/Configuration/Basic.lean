import Offside.Configuration.Library
import Offside.Disk

/-!
# Configuration

What can be configured, and how it is loaded from layers: the built-in values, files and
overrides. A loader gathers the files and the overrides; the library puts them together.
-/

set_option autoImplicit false

namespace Offside

/-- What can be configured. -/
structure Configuration where
  /-- The width of a tab and of a level of markup. -/
  tabWidth : Nat
  /-- Where compiled templates are kept. -/
  cacheDirectory : Option String
  /-- Whether the filters that come with the language are registered. -/
  builtinFilters : Bool
  /-- Whether short names of tags are expanded. -/
  autotags : Bool
deriving DecidableEq, Repr

/-- Why there is no configuration. -/
inductive ConfigurationError where
  | missingFile (path : Path)
  | unreadableFile (path : Path)
  | malformedFile (path : Path)
  | malformedBuiltin
  | malformedKey (key : String)
  | wrongValue (key : String)
  | zeroTabWidth
deriving DecidableEq, Repr

/-- The text of the error. -/
def ConfigurationError.message : ConfigurationError → String
  | missingFile path => "configuration file \"" ++ path.text ++ "\" not found"
  | unreadableFile path => "configuration file \"" ++ path.text ++ "\" is not text"
  | malformedFile path => "configuration file \"" ++ path.text ++ "\" is malformed"
  | malformedBuiltin => "the built-in configuration is malformed"
  | malformedKey key => "malformed configuration key \"" ++ key ++ "\""
  | wrongValue key => "missing or invalid value for configuration key \"" ++ key ++ "\""
  | zeroTabWidth => "render.tab_width must be a positive integer"

namespace Configuration

/-- A layer of a configuration. -/
inductive Layer (L : Library) where
  /-- A file that has to be there. -/
  | file (path : Path)
  /-- A file that may be missing. -/
  | optionalFile (path : Path)
  /-- A value for one key. -/
  | override (key : String) (value : L.Value)

/-- The text of the built-in settings, line by line. -/
def builtinLines : List String :=
  ["# Default configuration for slimc.",
   "#",
   "# User files and command-line flags are layered on top of these values.",
   "",
   "[render]",
   "# Spaces per tab in templates, and per nesting level in the output.",
   "tab_width = 2",
   "",
   "[cache]",
   "# Directory for compiled templates. Unset by default; `slimc --cache` needs it.",
   "# directory = \"/var/cache/slimc\"",
   "",
   "[extensions]",
   "# Register the style, php, javascript and cdata filters.",
   "builtin_filters = true",
   "# Expand shorthand tags such as `input:checkbox` and `a:void`.",
   "autotags = true"]

/-- The text of the built-in settings. -/
@[irreducible] def builtinText : String :=
  String.ofList (builtinLines.flatMap fun line => line.toList ++ ['\n'])

section

variable (L : Library)

/-! ### Reading files -/

/-- The built-in settings. -/
def builtin : Except ConfigurationError L.Settings :=
  match L.parse? builtinText with
  | some s => .ok s
  | none => .error .malformedBuiltin

/-- The path of a configuration file. -/
def findFile? (disk : Disk) (path : Path) : Option Path :=
  (L.candidates path).find? disk.isFile

/-- The settings of a file. -/
def readFile (disk : Disk) (path : Path) : Except ConfigurationError L.Settings :=
  match (findFile? L disk path).bind disk.read? with
  | none => .error (.missingFile path)
  | some (.error _) => .error (.unreadableFile path)
  | some (.ok text) =>
    match L.parse? text with
    | some s => .ok s
    | none => .error (.malformedFile path)

/-- The settings of a file that may be missing, if it is there. It may also be unreadable, but
not malformed. -/
def readOptionalFile (disk : Disk) (path : Path) :
    Except ConfigurationError (Option L.Settings) :=
  match readFile L disk path with
  | .ok s => .ok (some s)
  | .error (.malformedFile path) => .error (.malformedFile path)
  | .error _ => .ok none

/-! ### Reading values -/

/-- A value that has to be set, read as `read?` says. -/
def required {α : Type} (s : L.Settings) (f : Field) (read? : L.Value → Option α) :
    Except ConfigurationError α :=
  match L.get s f with
  | .ok (some value) =>
    match read? value with
    | some a => .ok a
    | none => .error (.wrongValue f.key)
  | _ => .error (.wrongValue f.key)

/-- A value that may be missing. -/
def optional {α : Type} (s : L.Settings) (f : Field) (read? : L.Value → Option α) :
    Except ConfigurationError (Option α) :=
  match L.get s f with
  | .ok none => .ok none
  | .ok (some value) =>
    match read? value with
    | some a => .ok (some a)
    | none => .error (.wrongValue f.key)
  | .error _ => .error (.wrongValue f.key)

/-- The configuration that settings stand for. -/
def ofSettings (s : L.Settings) : Except ConfigurationError Configuration := do
  let tabWidth ← required L s .tabWidth L.toNat?
  let cacheDirectory ← optional L s .cacheDirectory L.toText?
  let builtinFilters ← required L s .builtinFilters L.toFlag?
  let autotags ← required L s .autotags L.toFlag?
  if tabWidth = 0 then throw .zeroTabWidth
  else return { tabWidth, cacheDirectory, builtinFilters, autotags }

end

/-! ### Loading -/

/-- What layers have been gathered: files, each with whether it has to be there, and
overrides. -/
structure Loader (L : Library) where
  files : List (Path × Bool) := []
  overrides : List (L.Key × L.Value) := []

namespace Loader

variable {L : Library}

/-- Adds a layer. -/
def add (l : Loader L) : Layer L → Except ConfigurationError (Loader L)
  | .file path => .ok { l with files := l.files ++ [(path, true)] }
  | .optionalFile path => .ok { l with files := l.files ++ [(path, false)] }
  | .override key value =>
    match L.key? key with
    | some k => .ok { l with overrides := l.overrides ++ [(k, value)] }
    | none => .error (.malformedKey key)

/-- The settings of the files, behind the built-in ones. -/
def sources (l : Loader L) (disk : Disk) : Except ConfigurationError (List L.Settings) := do
  let builtin ← builtin L
  let files ← l.files.mapM fun (path, isRequired) =>
    if isRequired then (readFile L disk path).map some else readOptionalFile L disk path
  return builtin :: files.filterMap id

/-- The configuration that the layers lead to. -/
def build (l : Loader L) (disk : Disk) : Except ConfigurationError Configuration := do
  let sources ← l.sources disk
  ofSettings L (L.build sources l.overrides)

end Loader

/-- The configuration that layers lead to. -/
def load (L : Library) (disk : Disk) (layers : List (Layer L)) :
    Except ConfigurationError Configuration := do
  let l ← layers.foldlM Loader.add {}
  l.build disk

end Configuration

end Offside
