import Offside.Markup.Visitor

/-!
# Autotags

Short names for tags with the attributes they usually come with, such as
`input:text`. Implied attributes are set last, so they win over written ones.
-/

set_option autoImplicit false

namespace Offside

namespace Autotag

/-- Short names with the tag and the attributes they stand for. -/
def shorthands : List (String × String × List (String × String)) :=
  [("a:void", "a", [("href", "javascript:;")]),
   ("form:post", "form", [("method", "POST")]),
   ("link:css", "link", [("rel", "stylesheet"), ("type", "text/css")]),
   ("script:js", "script", [("type", "text/javascript")])]

/-- The types of input that have a short name. -/
def inputTypes : List String :=
  ["button", "checkbox", "file", "hidden", "image", "password", "radio", "reset", "submit",
    "text", "search", "tel", "url", "email", "datetime", "date", "month", "week", "time",
    "number", "range", "color", "datetime-local"]

/-- The tag and the attributes that a short name stands for. -/
def meaning? (name : String) : Option (String × List (String × String)) :=
  match shorthands.lookup name with
  | some meaning => some meaning
  | none =>
    (inputTypes.find? (name = "input:" ++ ·)).map fun type => ("input", [("type", type)])

end Autotag

/-- Whether the name of a tag is short. -/
def Element.isShort (e : Element) : Bool :=
  (Autotag.meaning? e.name).isSome

/-- The tag that a short name stands for, or the tag itself if its name is not
short. -/
def Element.expand (e : Element) : Element :=
  match Autotag.meaning? e.name with
  | some (name, implied) =>
    { e.setAttributes (implied.map fun (key, value) => (key, .text value)) with name }
  | none => e

/-- Expands short names. It only visits tags. -/
def Visitor.autotags : Visitor where
  code _ := .error (.unsupportedNode "autotags" .code)
  comment _ := .error (.unsupportedNode "autotags" .comment)
  doctype _ := .error (.unsupportedNode "autotags" .doctype)
  filter _ := .error (.unsupportedNode "autotags" .filter)
  tag t := .ok { t with toElement := t.expand }
  text _ := .error (.unsupportedNode "autotags" .text)

end Offside
