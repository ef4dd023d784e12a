import Offside.Configuration.Basic
import Offside.Document.Grammar
import Offside.Markup.Renderer

/-!
# Errors

Everything that can go wrong on the way from a template to its markup. Errors in
a template itself name the template they are in.
-/

set_option autoImplicit false

namespace Offside

/-- Why a template cannot be compiled. -/
inductive Error where
  /-- A line of the named template is indented to no open level. -/
  | malformedIndentation (line : Nat) (name : String)
  /-- No token or node of the named template starts on a line. -/
  | unknownToken (line : Nat) (name : String)
  | parse (error : ParseError)
  | render (error : RenderError)
  | registration (error : RegistrationError)
  | configuration (error : ConfigurationError)
  | notAFile (path : Path)
  | cacheUnavailable
  | cacheNotWritable (directory : Path)
  | file (path : Path) (fault : Disk.Fault)
deriving DecidableEq, Repr

namespace Error

/-- The error that something wrong with a named template leads to. -/
def ofParse (name : String) : ParseError → Error
  | .scan (.malformedIndentation line) => malformedIndentation line name
  | .scan (.unknownToken line) => unknownToken line name
  | .unknownToken _ line => unknownToken line name
  | error => parse error

/-- The text of the error. -/
def message : Error → String
  | malformedIndentation line name =>
    "Malformed indentation, Line " ++ toString line ++ " on " ++ name
  | unknownToken line name => "Unknown token found, Line " ++ toString line ++ " on " ++ name
  | parse error => error.message
  | render error => error.message
  | registration error => error.message
  | configuration error => error.message
  | notAFile path => path.text ++ " is not a file"
  | cacheUnavailable => "cache directory is not configured or does not exist"
  | cacheNotWritable directory => "cache directory " ++ directory.text ++ " is not writable"
  | file path fault => path.text ++ ": " ++ fault.message

end Error

end Offside
