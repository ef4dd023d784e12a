import Offside.Character.Reader

/-!
# Interpolations

An interpolation embeds an expression into text, written `#{expression}`: it ends at the
first closing brace. A backslash in front escapes it. The segments of a text are
its interpolations, its escaped interpolations and the characters in between.
-/

set_option autoImplicit false

namespace Offside.Interpolation

open Offside.Character (Reader Rest length_lt_cons upTo cut Piece)

/-- An interpolation as it stands in a text, by its expression. -/
inductive Span where
  /-- To be replaced by the value of the expression. -/
  | live (expression : List Char)
  /-- To be shown as it is, without the backslash. -/
  | escaped (expression : List Char)
deriving DecidableEq, Repr

/-- Reads an interpolation and returns its expression. -/
def readLive : Reader (List Char)
  | '#' :: '{' :: cs =>
    match upTo '}' cs with
    | some (expression, ⟨rest, h⟩) =>
      some (expression, ⟨rest, length_lt_cons (length_lt_cons h)⟩)
    | none => none
  | _ => none

/-- Reads an interpolation, escaped or not. -/
def readSpan : Reader Span
  | [] => none
  | c :: cs =>
    if c = '\\' then
      match readLive cs with
      | some (expression, ⟨rest, h⟩) => some (.escaped expression, ⟨rest, length_lt_cons h⟩)
      | none => none
    else
      match readLive (c :: cs) with
      | some (expression, rest) => some (.live expression, rest)
      | none => none

/-- The segments of a text. -/
def segments (cs : List Char) : List (Piece Span) :=
  cut readSpan cs

/-- Whether a text holds an interpolation, escaped or not. -/
def occursIn (text : String) : Bool :=
  (segments text.toList).any fun
    | .char _ => false
    | .span _ => true

end Offside.Interpolation
