import Offside.Character.Reader

/-!
# The parenthesis that closes an attribute list

An attribute list runs from an opening parenthesis to the one that closes it on
the same line. Parentheses inside quotes do not count; a quote of one kind is
plain text inside quotes of the other kind.
-/

set_option autoImplicit false

namespace Offside.Attribute

open Offside.Character (Reader length_lt_cons length_lt_cons_self)

/-- Whether `c` is a quote, of either kind. -/
def isQuote (c : Char) : Bool :=
  c == '"' || c == '\''

/-- Reads on to the parenthesis that brings the depth back to zero, which is read
too but not part of the result. `quote` is the quote that is open, if one is. -/
def readClosing (quote : Option Char) (depth : Nat) : Reader (List Char)
  | [] => none
  | c :: cs =>
    if c = '\n' then none
    else if quote = none ∧ c = ')' ∧ depth = 1 then some ([], ⟨cs, length_lt_cons_self cs⟩)
    else if quote = none ∧ c = ')' ∧ depth = 0 then none
    else
      let quote' :=
        match quote with
        | some q => if c = q then none else some q
        | none => if isQuote c then some c else none
      let depth' :=
        match quote, c with
        | none, '(' => depth + 1
        | none, ')' => depth - 1
        | _, _ => depth
      match readClosing quote' depth' cs with
      | some (body, ⟨rest, h⟩) => some (c :: body, ⟨rest, length_lt_cons h⟩)
      | none => none

/-- The number of bytes in front of the parenthesis that closes the list `text`
starts with. -/
def closingOffset? (text : String) : Option Nat :=
  (readClosing none 0 text.toList).map fun (before, _) => (String.ofList before).utf8ByteSize

end Offside.Attribute
