import Offside.Character.Reader

/-!
# Character entities

Escaping the characters that have a meaning in markup, and reading entities back.
-/

set_option autoImplicit false

namespace Offside.Markup

open Offside.Character

/-- A character as it stands in markup. -/
def escapeChar (c : Char) : List Char :=
  match c with
  | '&' => "&amp;".toList
  | '<' => "&lt;".toList
  | '>' => "&gt;".toList
  | '"' => "&quot;".toList
  | c => [c]

/-- The characters of an escaped text. -/
def escapeChars (cs : List Char) : List Char :=
  cs.flatMap escapeChar

/-- Escapes a text for markup and for values in double quotes. -/
def escape (text : String) : String :=
  String.ofList (escapeChars text.toList)

/-- The entities that are read back: what follows the ampersand, and the
character it stands for. -/
def entities : List (String × Char) :=
  [("amp;", '&'), ("lt;", '<'), ("gt;", '>'), ("quot;", '"'), ("#039;", '\''), ("#39;", '\'')]

/-- Reads an entity. -/
def readEntity : Reader Char
  | '&' :: cs =>
    entities.findSome? fun (name, c) =>
      match h : after? name.toList cs with
      | some rest =>
        some (c, ⟨rest, by
          have h := congrArg List.length (after?_eq_some_iff.1 h)
          simp only [List.length_append] at h
          simp only [List.length_cons]
          omega⟩)
      | none => none
  | _ => none

/-- The characters of a text whose entities are read back. -/
def unescapeChars (cs : List Char) : List Char :=
  replaceSpans readEntity (fun c => [c]) cs

/-- Reads the entities of a text back, from left to right. -/
def unescape (text : String) : String :=
  String.ofList (unescapeChars text.toList)

end Offside.Markup
