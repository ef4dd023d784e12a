import Offside.Layout

/-!
# Template sources

A template source in the form in which tokens are read from it: line breaks are
all `\n`, tabs are runs of spaces, and nothing is left to trim at either end.
-/

set_option autoImplicit false

namespace Offside.Source

/-- Turns the line breaks `\r\n` and `\r` into `\n`. -/
def unifyBreaks : List Char → List Char
  | [] => []
  | '\r' :: '\n' :: cs => '\n' :: unifyBreaks cs
  | '\r' :: cs => '\n' :: unifyBreaks cs
  | c :: cs => c :: unifyBreaks cs

/-- Turns every tab into spaces. -/
def expandTabs (layout : Layout) (cs : List Char) : List Char :=
  cs.flatMap fun c => if c = '\t' then List.replicate layout.tabWidth ' ' else [c]

/-- The characters that do not count at the ends of a source. -/
def isMargin (c : Char) : Bool :=
  c == ' ' || c == '\t' || c == '\n' || c == '\r' || c == '\x00' || c == '\x0b'

/-- The form of a source in which tokens are read from it. -/
def normalize (layout : Layout) (source : String) : List Char :=
  Character.trim isMargin (expandTabs layout (unifyBreaks source.toList))

end Offside.Source
