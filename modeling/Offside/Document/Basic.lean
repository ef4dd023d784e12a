import Offside.Attribute.Basic
import Offside.Character.Trim

/-!
# Documents

A document is a block of nodes. What a node says about itself (`Element`,
`Statement`, `Remark`, `Directive`) is kept apart from the nodes below it, so that
it can be revised on its own.

The attribute `class` collects all names it is given; any other attribute has the
value it was given last (`Element.setAttribute`).
-/

set_option autoImplicit false

namespace Offside

/-- Lines of text. -/
structure Text where
  line : Nat
  lines : List String := []
deriving DecidableEq, Repr

namespace Text

/-- The text with one more line. -/
def addLine (t : Text) (value : String) : Text :=
  { t with lines := t.lines ++ [value] }

/-- The lines of a value. The empty value has none. -/
def ofValue (value : String) (line : Nat) : Text where
  line := line
  lines := if value = "" then [] else (value.toList.splitOn '\n').map String.ofList

end Text

/-- A document type, by its version. -/
structure Doctype where
  line : Nat
  version : String
deriving DecidableEq, Repr

/-- A tag by itself, without what is inside it. -/
structure Element where
  line : Nat
  name : String
  attributes : Attributes
deriving DecidableEq, Repr

namespace Element

open Attribute (Value)

/-- The attributes of a new tag: `id` comes first and is switched off. -/
def freshAttributes : Attributes :=
  Attributes.empty.insert "id" (.flag false)

/-- A tag without attributes. -/
def ofName (name : String) (line : Nat) : Element where
  line := line
  name := name
  attributes := freshAttributes

/-- The class names that a value adds, unless it is a switch. -/
def classNames? : Value → Option (List String)
  | .flag _ => none
  | .text name => some [name]
  | .list names => some names

/-- Sets an attribute. Class names are added to those set before, and switching
`class` on or off has no effect. -/
def setAttribute (e : Element) (key : String) (value : Value) : Element :=
  if key = "class" then
    match classNames? value with
    | none => e
    | some names =>
      let before :=
        match e.attributes.get? key with
        | some (.list before) => before
        | _ => []
      { e with attributes := e.attributes.insert key (.list (before ++ names)) }
  else { e with attributes := e.attributes.insert key value }

/-- Sets attributes one after the other. -/
def setAttributes (e : Element) (entries : List Attribute.Entry) : Element :=
  entries.foldl (fun e (key, value) => e.setAttribute key value) e

end Element

/-- Code by itself, without the block below it. -/
structure Statement where
  line : Nat
  expression : String
  /-- Whether the value of the expression is shown. -/
  buffered : Bool
  /-- Whether the block below holds code, line by line. -/
  verbatim : Bool := false
deriving DecidableEq, Repr

/-- A comment by itself, without the block below it. -/
structure Remark where
  line : Nat
  body : String
  /-- Whether the comment is shown in the markup. -/
  buffered : Bool
deriving DecidableEq, Repr

/-- A filter by itself, without the text it is applied to. -/
structure Directive where
  line : Nat
  name : String
  attributes : Attributes
deriving DecidableEq, Repr

mutual

/-- A node of a document. -/
inductive Node where
  /-- Nodes that stand for themselves, one after the other. -/
  | group (block : Block)
  | tag (tag : Tag)
  | text (text : Text)
  | code (code : Code)
  | comment (comment : Comment)
  | doctype (doctype : Doctype)
  | filter (filter : Filter)

/-- Nodes at the same level. -/
structure Block where
  line : Nat
  children : List Node

/-- A tag with its text and code, which stand on its own line, and the block below. -/
structure Tag extends Element where
  text : Option Text
  code : Option Code
  children : Block

/-- Code with the block below it. -/
structure Code extends Statement where
  block : Option Block

/-- A comment with the block below it. -/
structure Comment extends Remark where
  block : Option Block

/-- A filter with the node it is applied to. -/
structure Filter extends Directive where
  body : Node

end

/-- The kinds of nodes that can be revised before they are rendered. -/
inductive Node.Kind where
  | code
  | comment
  | doctype
  | filter
  | tag
  | text
deriving DecidableEq, Repr

namespace Node.Kind

/-- All kinds, in the order in which they are listed. -/
def all : List Node.Kind :=
  [code, comment, doctype, filter, tag, text]

/-- The name of a kind. -/
def name : Node.Kind → String
  | code => "code"
  | comment => "comment"
  | doctype => "doctype"
  | filter => "filter"
  | tag => "tag"
  | text => "text"

/-- The kind with the given name. -/
def ofName? (name : String) : Option Node.Kind :=
  all.find? (·.name = name)

end Node.Kind

end Offside
