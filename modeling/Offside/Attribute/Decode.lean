import Offside.Attribute.Basic
import Offside.Attribute.Placeholder

/-!
# Attribute lists

Decodes the text between the parentheses of an attribute list. Entries are
divided by spaces and commas; a name is divided from its value by `=` or `:`. A
name without a value is switched on. The unquoted value `true` switches on;
`false`, `null` and the empty value switch off.
-/

set_option autoImplicit false

namespace Offside

namespace Attribute

open Offside.Character

/-- Whether `c` divides a name from its value. -/
def isSeparator (c : Char) : Bool :=
  c == '=' || c == ':'

/-- Whether `c` divides two entries. -/
def isDelimiter (c : Char) : Bool :=
  c == ' ' || c == ','

/-- Removes the spaces around separators. `afterSeparator` tells whether a
separator, or one and a run of spaces, stands in front. -/
def tighten (afterSeparator : Bool) : List Char → List Char
  | [] => []
  | c :: cs =>
    if isSpace c then
      if afterSeparator || ((cs.dropWhile isSpace).head?.any isSeparator) then
        tighten afterSeparator cs
      else c :: tighten false cs
    else c :: tighten (isSeparator c) cs

/-- `cs` without a quote at its start and a quote at its end, whichever they are. -/
def stripQuotes (cs : List Char) : List Char :=
  let dropQuote : List Char → List Char
    | [] => []
    | c :: cs => if isQuote c then cs else c :: cs
  (dropQuote (dropQuote cs).reverse).reverse

/-- Divides an entry at its first `=`, or else at its first `:`. An entry with a
quote inside its name, past the first character, is not divided. -/
def divide? (entry : List Char) : Option (List Char × List Char) :=
  match upTo '=' entry <|> upTo ':' entry with
  | some (key, ⟨value, _⟩) => if (key.drop 1).any isQuote then none else some (key, value)
  | none => none

/-- The value that a raw text stands for. -/
def Value.ofRaw (p : Placeholders) (raw : List Char) : Value :=
  let raw := trim isSpace raw
  if raw = "true".toList then .flag true
  else if raw = [] ∨ raw = "null".toList ∨ raw = "false".toList then .flag false
  else
    let restored := p.restore (stripQuotes raw)
    if restored = [] then .flag false else .text (String.ofList restored)

/-- The name and value of one entry. -/
def Entry.ofRaw (p : Placeholders) (entry : List Char) : Entry :=
  let (key, value) :=
    match divide? entry with
    | some (key, value) => (p.restore key, Value.ofRaw p value)
    | none => (p.restore entry, .flag true)
  (String.ofList (stripQuotes (trim isSpace key)), value)

/-- The entries of an attribute list, as they are written. Entries without a name
are left out. -/
def entriesOf (raw : String) : List Entry :=
  let (p, text) := Placeholders.substitute raw.toList
  let pieces := (tighten false (trim isBlank text)).splitOnP isDelimiter
  let entries := (pieces.filter (· ≠ [])).map (Entry.ofRaw p)
  entries.filter (·.1 ≠ "")

end Attribute

/-- Decodes an attribute list. -/
def Attributes.parse (raw : String) : Attributes :=
  Attributes.ofList (Attribute.entriesOf raw)

end Offside
