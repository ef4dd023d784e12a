import Offside.Path

/-!
# Configuration libraries

The program leaves it to a library to read configuration files and to put together what they set
and what is set otherwise. `Library` is what the program needs of it; any such library will do.
-/

set_option autoImplicit false

namespace Offside.Configuration

/-- A value that can be configured. -/
inductive Field where
  | tabWidth
  | cacheDirectory
  | builtinFilters
  | autotags
deriving DecidableEq, Repr

namespace Field

/-- The section that a value is in. -/
def group : Field → String
  | tabWidth => "render"
  | cacheDirectory => "cache"
  | builtinFilters | autotags => "extensions"

/-- The name of a value in its section. -/
def name : Field → String
  | tabWidth => "tab_width"
  | cacheDirectory => "directory"
  | builtinFilters => "builtin_filters"
  | autotags => "autotags"

/-- The position of a value among those of its section. -/
def position : Field → Nat
  | tabWidth | cacheDirectory | builtinFilters => 0
  | autotags => 1

/-- The key of a value: its name behind that of the section. -/
def key (f : Field) : String :=
  f.group ++ "." ++ f.name

end Field

/-- A library for configurations. -/
structure Library where
  /-- What a source sets, or what sources and overrides come to. -/
  Settings : Type
  /-- What an override is for. -/
  Key : Type
  /-- What a key is set to. -/
  Value : Type
  decidableKey : DecidableEq Key
  /-- The paths at which a file is looked for. -/
  candidates : Path → List Path
  /-- What the text of a file sets. -/
  parse? : String → Option Settings
  /-- The key that is written in some way. -/
  key? : String → Option Key
  ofNumber : Int → Value
  ofText : String → Value
  /-- What sources and overrides come to, the earlier ones first. -/
  build : List Settings → List (Key × Value) → Settings
  /-- What a field is set to, if it is set. There is no answer if its section is none. -/
  get : Settings → Field → Except Unit (Option Value)
  /-- A value read as a natural number. -/
  toNat? : Value → Option Nat
  /-- A value read as a truth value. -/
  toFlag? : Value → Option Bool
  /-- A value read as a text. -/
  toText? : Value → Option String

attribute [instance] Library.decidableKey

end Offside.Configuration
