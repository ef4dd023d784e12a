import Offside.Attribute.Basic
import Offside.Markup.Interpolation

/-!
# Attributes in markup

Writes attributes behind the name of a tag. What is switched off is left out. A
list that holds an interpolation is written in single quotes, because the value
of the interpolation may hold double quotes.
-/

set_option autoImplicit false

namespace Offside

namespace Attribute

/-- A list of texts in markup, with its quotes. -/
def listMarkup (items : List String) : String :=
  let joined := " ".intercalate items
  if Interpolation.occursIn joined then
    let quoted := String.ofList (joined.toList.map fun c => if c = '\'' then '"' else c)
    "'" ++ Markup.interpolate (Markup.escape quoted) true ++ "'"
  else "\"" ++ Markup.escape joined ++ "\""

/-- An attribute in markup, with a space in front. -/
def Entry.markup : Entry → String
  | (_, .flag false) => ""
  | (key, .flag true) =>
    if Interpolation.occursIn key then " " ++ Markup.interpolate key false
    else " " ++ key ++ "=\"" ++ key ++ "\""
  | (key, .text value) =>
    " " ++ key ++ "=\"" ++ Markup.interpolate (Markup.escape value) true ++ "\""
  | (key, .list items) => " " ++ key ++ "=" ++ listMarkup items

end Attribute

/-- Attributes in markup, in order. -/
def Attributes.markup (as : Attributes) : String :=
  String.join (as.entries.map Attribute.Entry.markup)

end Offside
