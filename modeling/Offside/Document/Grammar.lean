import Offside.Document.Basic
import Offside.Token.Stream

/-!
# The grammar of documents

Reads a document from a stream of lexemes by recursive descent, looking one
lexeme ahead. A block starts at an indent and ends at the next outdent or at the
end of the template; text below a verbatim token is gathered line by line.

A shorthand at the start of a line stands for a `div`: the shorthand is put back
into the stream behind a tag `div`.

Every function takes fuel, which is spent on each call. `ofStream` gives as much
as the lexemes of a stream can use up.
-/

set_option autoImplicit false

namespace Offside

open Offside.Character (trimSpaces trimLeadingSpaces)

/-- What is wrong with a template. -/
inductive ParseError where
  /-- The template has no further lexeme. -/
  | scan (error : ScanError)
  /-- A token of another kind was needed. -/
  | unexpectedToken (expected found : Token.Kind) (line : Nat)
  /-- No node starts with a token of this kind. -/
  | unknownToken (found : Token.Kind) (line : Nat)
  /-- There was not enough fuel. -/
  | outOfFuel
deriving DecidableEq, Repr

namespace ParseError

/-- The line of the error. -/
def line : ParseError → Nat
  | scan error => error.line
  | unexpectedToken _ _ line => line
  | unknownToken _ line => line
  | outOfFuel => 0

/-- The text of the error. -/
def message : ParseError → String
  | scan error => error.message
  | unexpectedToken expected found line =>
    "expected " ++ expected.name ++ ", but got " ++ found.name ++ " on line " ++ toString line
  | unknownToken found line => "unexpected " ++ found.name ++ " token on line " ++ toString line
  | outOfFuel => "out of fuel"

end ParseError

/-- Reads from a stream, unless something is wrong with it. -/
abbrev Grammar : Type → Type :=
  StateT Stream (Except ParseError)

namespace Grammar

/-- Takes the next lexeme. -/
def take : Grammar Lexeme := fun s =>
  match s.advance with
  | (.ok l, s) => .ok (l, s)
  | (.error e, _) => .error (.scan e)

/-- Looks at the next lexeme. -/
def peek : Grammar Lexeme := fun s =>
  match s.predict 1 with
  | (.ok l, s) => .ok (l, s)
  | (.error e, _) => .error (.scan e)

/-- Drops the next lexeme. -/
def drop : Grammar Unit := do
  let _ ← take

/-- The line that the stream has reached. -/
def line : Grammar Nat :=
  return (← get).line

/-- Puts a lexeme back, behind the others that wait in the stream. -/
def putBack (l : Lexeme) : Grammar Unit :=
  modify (·.defer l)

/-! ### Runs of lexemes -/

/-- Drops newlines. -/
def skipNewlines : Nat → Grammar Unit
  | 0 => throw .outOfFuel
  | fuel + 1 => do
    if (← peek).kind = .newline then
      drop
      skipNewlines fuel

/-- Reads the shorthands and attribute lists behind a tag. -/
def attributes : Nat → Element → Grammar Element
  | 0, _ => throw .outOfFuel
  | fuel + 1, e => do
    match (← peek).token with
    | .idName name =>
      drop
      attributes fuel (e.setAttribute "id" (.text name))
    | .className name =>
      drop
      attributes fuel (e.setAttribute "class" (.text name))
    | .attributes _ as =>
      drop
      attributes fuel (e.setAttributes as.entries)
    | _ => return e

/-- Reads the lines of a verbatim region, up to the first lexeme that is neither
a text nor an indent. -/
def textLines : Nat → Text → Grammar Text
  | 0, _ => throw .outOfFuel
  | fuel + 1, text => do
    match (← peek).token with
    | .indent =>
      drop
      textLines fuel text
    | .text value =>
      drop
      textLines fuel (text.addLine value)
    | _ => return text

/-- Reads the text of a verbatim region. It starts on the line that opened the
region, or on a line below. -/
def textBlock (fuel : Nat) : Grammar Text := do
  let text : Text := { line := ← line }
  let l ← peek
  match l.token with
  | .text value =>
    drop
    textLines fuel (text.addLine value)
  | .indent =>
    drop
    textLines fuel text
  | _ => throw (.unexpectedToken .indent l.kind l.line)

/-- Reads a filter, behind its name. -/
def filter (fuel : Nat) (name : String) (line : Nat) : Grammar Filter := do
  let attributes ←
    match (← peek).token with
    | .attributes _ as =>
      drop
      pure as
    | _ => pure .empty
  return { line, name, attributes, body := .text (← textBlock fuel) }

/-! ### Nodes and blocks -/

/-- Code by itself. Its block holds code when it opens a verbatim region. -/
def statement (line : Nat) (expression : String) (buffered : Bool) : Statement where
  line := line
  expression := expression
  buffered := buffered
  verbatim := (Token.code expression buffered).opensVerbatim

mutual

/-- Reads a node. A lexeme that only closes or opens a level gives no node. -/
def node : Nat → Grammar (Option Node)
  | 0 => throw .outOfFuel
  | fuel + 1 => do
    let l ← peek
    match l.token with
    | .tag name =>
      drop
      return some (.tag (← tag fuel (.ofName name l.line)))
    | .doctype version =>
      drop
      return some (.doctype { line := l.line, version })
    | .filter name =>
      drop
      return some (.filter (← filter fuel name l.line))
    | .pipe =>
      drop
      return some (.text (← textBlock fuel))
    | .comment body buffered =>
      drop
      return some (.comment (← comment fuel { line := l.line, body := trimSpaces body, buffered }))
    | .text value =>
      drop
      return some (.text (.ofValue value l.line))
    | .code expression buffered =>
      drop
      return some (.code (← code fuel (statement l.line expression buffered)))
    | .idName _ | .className _ =>
      drop
      putBack ⟨.tag "div", l.line⟩
      putBack l
      node fuel
    | .outdent | .indent | .eos =>
      drop
      return none
    | .attributes _ _ | .newline => throw (.unknownToken l.kind (← line))

/-- Reads a tag, behind its name. Text that follows on the next line at the same
level leaves an empty line in the text of the tag. -/
def tag : Nat → Element → Grammar Tag
  | 0, _ => throw .outOfFuel
  | fuel + 1, e => do
    let e ← attributes fuel e
    let l ← peek
    let (inlineText, inlineCode) ←
      match l.token with
      | .text value =>
        drop
        pure (some (Text.ofValue (trimLeadingSpaces value) l.line), none)
      | .code expression buffered =>
        drop
        let code ← code fuel (statement l.line expression buffered)
        pure (none, some code)
      | _ => pure (none, none)
    skipNewlines fuel
    let inlineText ←
      if (← peek).kind = .text then
        let text := inlineText.getD { line := ← line }
        pure (some (text.addLine ""))
      else pure inlineText
    let children ←
      if (← peek).kind = .indent then block fuel else pure { line := e.line, children := [] }
    return { e with text := inlineText, code := inlineCode, children }

/-- Reads what stands below code. -/
def code : Nat → Statement → Grammar Code
  | 0, _ => throw .outOfFuel
  | fuel + 1, head => do
    skipNewlines fuel
    let block ←
      if head.verbatim then
        let text ← textBlock fuel
        pure (some { line := head.line, children := [.text text] })
      else if (← peek).kind = .indent then some <$> block fuel
      else pure none
    return { head with block }

/-- Reads what stands below a comment. -/
def comment : Nat → Remark → Grammar Comment
  | 0, _ => throw .outOfFuel
  | fuel + 1, head => do
    skipNewlines fuel
    let block ←
      if (← peek).kind = .indent then
        if head.buffered then some <$> block fuel
        else
          let text ← textBlock fuel
          pure (some { line := head.line, children := [.text text] })
      else pure none
    return { head with block }

/-- Reads a block, from the indent that opens it to the outdent that closes it. -/
def block : Nat → Grammar Block
  | 0 => throw .outOfFuel
  | fuel + 1 => do
    let opening ← take
    let children ← nodes fuel
    drop
    return { line := opening.line, children }

/-- Reads nodes up to an outdent or the end of the template. -/
def nodes : Nat → Grammar (List Node)
  | 0 => throw .outOfFuel
  | fuel + 1 => do
    match (← peek).kind with
    | .outdent | .eos => return []
    | .newline =>
      drop
      nodes fuel
    | _ =>
      let first ← node fuel
      let others ← nodes fuel
      return first.toList ++ others

end

/-- Reads nodes up to the end of the template. -/
def document : Nat → Grammar (List Node)
  | 0 => throw .outOfFuel
  | fuel + 1 => do
    match (← peek).kind with
    | .eos => return []
    | .newline =>
      drop
      document fuel
    | _ =>
      let first ← node fuel
      let others ← document fuel
      return first.toList ++ others

/-- More fuel than reading a stream to its end can use up. -/
def fuelFor (s : Stream) : Nat :=
  12 * (s.size + 1)

end Grammar

/-- The document that a stream of lexemes stands for. -/
def Block.ofStream (s : Stream) : Except ParseError Block :=
  match Grammar.document (Grammar.fuelFor s) s with
  | .ok (children, _) => .ok { line := s.line, children }
  | .error e => .error e

/-- The document that a template stands for. -/
def parse (layout : Layout) (source : String) : Except ParseError Block :=
  Block.ofStream (Stream.ofSource layout source)

end Offside
