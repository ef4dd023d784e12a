import Offside.Markup.Renderer

/-!
# Listing a renderer

One line of text that tells the layout of a renderer and its extensions.
-/

set_option autoImplicit false

namespace Offside

namespace Listing

/-- A character inside quotes. Hidden characters are written by their code point. -/
def quoteChar (c : Char) : List Char :=
  if c = '"' ∨ c = '\\' then ['\\', c]
  else if c = '\n' then ['\\', 'n']
  else if c = '\r' then ['\\', 'r']
  else if c = '\t' then ['\\', 't']
  else if c = '\x00' then ['\\', '0']
  else if Character.isHidden c then ['\\', 'u', '{'] ++ Nat.toDigits 16 c.toNat ++ ['}']
  else [c]

/-- A text in quotes. -/
def quote (text : String) : String :=
  "\"" ++ String.ofList (text.toList.flatMap quoteChar) ++ "\""

/-- The name of a kind of nodes in a listing. -/
def kindName : Node.Kind → String
  | .code => "Code"
  | .comment => "Comment"
  | .doctype => "Doctype"
  | .filter => "Filter"
  | .tag => "Tag"
  | .text => "Text"

end Listing

/-- The layout, the number of visitors of each kind that has some, and the
aliases of the filters in the order they were registered. -/
def Renderer.listing (r : Renderer) : String :=
  let visitors := (Node.Kind.all.filter (r.visitors · matches _ :: _)).map fun kind =>
    "(" ++ Listing.kindName kind ++ ", " ++ toString (r.visitors kind).length ++ ")"
  let filters := r.filters.map fun (name, _) => Listing.quote name
  "Dumper \x7b options: Options \x7b tab_width: " ++ toString r.layout.tabWidth ++
    " \x7d, visitors: [" ++ ", ".intercalate visitors ++
    "], filters: [" ++ ", ".intercalate filters ++ "] \x7d"

end Offside
