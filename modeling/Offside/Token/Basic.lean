import Offside.Attribute.Basic

/-!
# Tokens

The tokens of a template, and lexemes: tokens with the line they were read on.
-/

set_option autoImplicit false

namespace Offside

/-- A token of a template. -/
inductive Token where
  | tag (name : String)
  /-- A shorthand `#name` for the attribute `id`. -/
  | idName (name : String)
  /-- A shorthand `.name` for the attribute `class`. -/
  | className (name : String)
  /-- An attribute list: the text between its parentheses, and what it says. -/
  | attributes (raw : String) (attributes : Attributes)
  | text (value : String)
  | code (source : String) (buffered : Bool)
  | comment (body : String) (buffered : Bool)
  | doctype (version : String)
  | filter (name : String)
  | pipe
  | indent
  | outdent
  | newline
  /-- The end of the template. -/
  | eos
deriving DecidableEq, Repr

/-- The kinds of tokens. -/
inductive Token.Kind where
  | tag
  | idName
  | className
  | attributes
  | text
  | code
  | comment
  | doctype
  | filter
  | pipe
  | indent
  | outdent
  | newline
  | eos
deriving DecidableEq, Repr

/-- The name of a kind in messages and listings. -/
def Token.Kind.name : Token.Kind → String
  | tag => "tag"
  | idName => "id"
  | className => "class"
  | attributes => "attributes"
  | text => "text"
  | code => "code"
  | comment => "comment"
  | doctype => "doctype"
  | filter => "filter"
  | pipe => "pipe"
  | indent => "indent"
  | outdent => "outdent"
  | newline => "newline"
  | eos => "eos"

namespace Token

/-- The kind of a token. -/
def kind : Token → Kind
  | tag _ => .tag
  | idName _ => .idName
  | className _ => .className
  | attributes _ _ => .attributes
  | text _ => .text
  | code _ _ => .code
  | comment _ _ => .comment
  | doctype _ => .doctype
  | filter _ => .filter
  | pipe => .pipe
  | indent => .indent
  | outdent => .outdent
  | newline => .newline
  | eos => .eos

/-- Whether the lines below the token are text, not templates: below filters,
pipes, hidden comments, and hidden code that ends in a backslash. -/
def opensVerbatim : Token → Bool
  | filter _ => true
  | pipe => true
  | comment _ buffered => !buffered
  | code source buffered => !buffered && source.toList.getLast? == some '\\'
  | _ => false

end Token

/-- A token with the line it was read on. -/
structure Lexeme where
  token : Token
  line : Nat
deriving DecidableEq, Repr

/-- The kind of a lexeme's token. -/
def Lexeme.kind (l : Lexeme) : Token.Kind :=
  l.token.kind

end Offside
