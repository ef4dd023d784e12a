import Offside.Interpolation
import Offside.Markup.Entity

/-!
# Interpolations in markup

An interpolation becomes an output directive with its expression; an escaped one
loses its backslash and stays as it is.
-/

set_option autoImplicit false

namespace Offside

open Offside.Character (replaceSpans)

/-- What stands in markup for an interpolation. With `unescapes`, the entities of
its expression are read back first. -/
def Interpolation.Span.markup (unescapes : Bool) : Interpolation.Span → List Char
  | .live expression =>
    let expression := if unescapes then Markup.unescapeChars expression else expression
    "<?= ".toList ++ expression ++ " ?>".toList
  | .escaped expression => '#' :: '{' :: expression ++ ['}']

namespace Markup

/-- The characters of a text whose interpolations are replaced. -/
def interpolateChars (unescapes : Bool) (cs : List Char) : List Char :=
  replaceSpans Interpolation.readSpan (Interpolation.Span.markup unescapes) cs

/-- Replaces the interpolations of a text. With `unescapes`, for a text that was
escaped, entities inside expressions are read back. -/
def interpolate (text : String) (unescapes : Bool) : String :=
  String.ofList (interpolateChars unescapes text.toList)

end Markup

end Offside
