import Offside.Document.Basic
import Offside.Token.Basic

/-!
# Listings of lexemes and documents

Lexemes and documents as JSON text, indented by two spaces a level. Attributes are
objects, in their order.
-/

set_option autoImplicit false

namespace Offside

/-- A JSON value. The fields of an object are in order. -/
inductive Json where
  | null
  | bool (value : Bool)
  | number (value : Nat)
  | string (value : String)
  | array (items : List Json)
  | object (fields : List (String × Json))

namespace Json

/-! ### Text -/

/-- A character inside a JSON string. -/
def escapeChar (c : Char) : List Char :=
  match c with
  | '"' => ['\\', '"']
  | '\\' => ['\\', '\\']
  | '\n' => ['\\', 'n']
  | '\r' => ['\\', 'r']
  | '\t' => ['\\', 't']
  | '\x08' => ['\\', 'b']
  | '\x0c' => ['\\', 'f']
  | c =>
    if c.toNat < 0x20 then
      ['\\', 'u', '0', '0', Nat.digitChar (c.toNat / 16), Nat.digitChar (c.toNat % 16)]
    else [c]

/-- A JSON string, with its quotes. -/
def quote (text : String) : String :=
  "\"" ++ String.ofList (text.toList.flatMap escapeChar) ++ "\""

/-- Items between brackets, each on a line of its own, one level deeper. -/
def enclose (level : Nat) (opening closing : String) (items : List String) : String :=
  if items = [] then opening ++ closing
  else
    let inner := "\n" ++ Character.spaces (2 * (level + 1))
    opening ++ inner ++ ("," ++ inner).intercalate items ++ "\n" ++
      Character.spaces (2 * level) ++ closing

mutual

/-- The text of a value whose first line stands at the given level. -/
def write (level : Nat) : Json → String
  | null => "null"
  | bool value => if value then "true" else "false"
  | number value => toString value
  | string value => quote value
  | array items => enclose level "[" "]" (writeItems (level + 1) items)
  | object fields => enclose level "\x7b" "\x7d" (writeFields (level + 1) fields)

/-- The texts of the items of an array. -/
def writeItems (level : Nat) : List Json → List String
  | [] => []
  | item :: items => write level item :: writeItems level items

/-- The texts of the fields of an object. -/
def writeFields (level : Nat) : List (String × Json) → List String
  | [] => []
  | (key, value) :: fields => (quote key ++ ": " ++ write level value) :: writeFields level fields

end

/-- The text of a value. -/
def pretty (value : Json) : String :=
  value.write 0

end Json

/-! ### Values -/

/-- The value of an attribute. -/
def Attribute.Value.toJson : Attribute.Value → Json
  | flag on => .bool on
  | text value => .string value
  | list items => .array (items.map .string)

/-- Attributes in order. -/
def Attributes.toJson (as : Attributes) : Json :=
  .object (as.entries.map fun (key, value) => (key, value.toJson))

/-- What a token holds. -/
def Token.fields : Token → List (String × Json)
  | tag name | idName name | className name | filter name => [("name", .string name)]
  | attributes raw as => [("raw", .string raw), ("attributes", as.toJson)]
  | text value => [("value", .string value)]
  | code source buffered => [("code", .string source), ("buffered", .bool buffered)]
  | comment body buffered => [("body", .string body), ("buffered", .bool buffered)]
  | doctype version => [("version", .string version)]
  | pipe | indent | outdent | newline | eos => []

/-- A lexeme: the kind of its token, what the token holds, and its line. -/
def Lexeme.toJson (l : Lexeme) : Json :=
  .object (("type", .string l.kind.name) :: l.token.fields ++ [("line", .number l.line)])

/-- The fields of a text. -/
def Text.fields (t : Text) : List (String × Json) :=
  [("line", .number t.line), ("lines", .array (t.lines.map .string))]

/-- The fields of a document type. -/
def Doctype.fields (d : Doctype) : List (String × Json) :=
  [("line", .number d.line), ("version", .string d.version)]

/-- The fields of a tag by itself. -/
def Element.fields (e : Element) : List (String × Json) :=
  [("line", .number e.line), ("name", .string e.name), ("attributes", e.attributes.toJson)]

/-- The fields of code by itself. -/
def Statement.fields (s : Statement) : List (String × Json) :=
  [("line", .number s.line), ("expression", .string s.expression),
    ("buffered", .bool s.buffered), ("verbatim", .bool s.verbatim)]

/-- The fields of a comment by itself. -/
def Remark.fields (r : Remark) : List (String × Json) :=
  [("line", .number r.line), ("body", .string r.body), ("buffered", .bool r.buffered)]

/-- The fields of a filter by itself. -/
def Directive.fields (d : Directive) : List (String × Json) :=
  [("line", .number d.line), ("name", .string d.name), ("attributes", d.attributes.toJson)]

mutual

/-- A node: its kind, and its fields. -/
def Node.toJson : Node → Json
  | .group block => .object (("type", .string "block") :: block.fields)
  | .tag tag => .object (("type", .string "tag") :: tag.fields)
  | .text text => .object (("type", .string "text") :: text.fields)
  | .code code => .object (("type", .string "code") :: code.fields)
  | .comment comment => .object (("type", .string "comment") :: comment.fields)
  | .doctype doctype => .object (("type", .string "doctype") :: doctype.fields)
  | .filter filter => .object (("type", .string "filter") :: filter.fields)

/-- The fields of a block. -/
def Block.fields : Block → List (String × Json)
  | ⟨line, children⟩ => [("line", .number line), ("children", .array (nodesToJson children))]

/-- The nodes of a block. -/
def nodesToJson : List Node → List Json
  | [] => []
  | node :: nodes => node.toJson :: nodesToJson nodes

/-- The fields of a tag. -/
def Tag.fields : Tag → List (String × Json)
  | ⟨element, text, code, children⟩ =>
    element.fields ++
      [("text", match text with | some text => .object text.fields | none => .null),
       ("code", match code with | some code => .object code.fields | none => .null),
       ("children", .object children.fields)]

/-- The fields of code. -/
def Code.fields : Code → List (String × Json)
  | ⟨statement, block⟩ =>
    statement.fields ++
      [("block", match block with | some block => .object block.fields | none => .null)]

/-- The fields of a comment. -/
def Comment.fields : Comment → List (String × Json)
  | ⟨remark, block⟩ =>
    remark.fields ++
      [("block", match block with | some block => .object block.fields | none => .null)]

/-- The fields of a filter. -/
def Filter.fields : Filter → List (String × Json)
  | ⟨directive, body⟩ => directive.fields ++ [("block", body.toJson)]

end

/-- A document. -/
def Block.toJson (b : Block) : Json :=
  .object b.fields

end Offside
