import Offside.Attribute.Decode
import Offside.Token.Basic

/-!
# Reading one token

The readers for the tokens inside a line, in the order in which they are tried
(`readers`), and the reader that depends on the token in front: the text behind
that token (`readInlineText`).
-/

set_option autoImplicit false

namespace Offside.Token

open Offside.Character
open Offside.Attribute (readClosing)

/-- The characters of a line. -/
def isInline (c : Char) : Bool :=
  c != '\n'

/-- Reads a line up to its line break, if it has any characters. -/
def readLine : Reader (List Char)
  | [] => none
  | c :: cs =>
    if isInline c then some (c :: cs.takeWhile isInline, .afterRun isInline c cs) else none

theorem length_lt_of_doctype {cs inner : List Char}
    (h : (after? "doctype".toList cs).or (after? "!!!".toList cs) = some inner) :
    inner.length < cs.length := by
  rcases Option.or_eq_some_iff.1 h with h | ⟨-, h⟩ <;>
    · have h := congrArg List.length (after?_eq_some_iff.1 h)
      simp at h
      omega

/-- Reads `!!!` or `doctype`, with the version behind it. -/
def readDoctype : Reader Token := fun cs =>
  match h : (after? "doctype".toList cs).or (after? "!!!".toList cs) with
  | none => none
  | some inner =>
    let body := inner.dropWhile isSpace
    let version := body.takeWhile isVersion
    some (.doctype (String.ofList (trim isBlank version)), ⟨body.dropWhile isVersion, by
      have h₁ := length_dropWhile_le isVersion body
      have h₂ := length_dropWhile_le isSpace inner
      exact Nat.lt_of_le_of_lt (Nat.le_trans h₁ h₂) (length_lt_of_doctype h)⟩)
where
  /-- The characters of a version. -/
  isVersion (c : Char) : Bool :=
    isName c || c == ' ' || c == '.'

/-- Reads the name of a tag. -/
def readTag : Reader Token
  | [] => none
  | c :: cs =>
    if isWord c then
      some (.tag (String.ofList (c :: cs.takeWhile isTagName)), .afterRun isTagName c cs)
    else none

/-- Reads the pipe in front of a text. -/
def readPipe : Reader Token
  | '|' :: cs => some (.pipe, ⟨cs, length_lt_cons_self cs⟩)
  | _ => none

/-- Reads a line of markup, which starts with an opening or closing tag. -/
def readMarkup : Reader Token
  | '<' :: c :: cs =>
    if isWord c || c == '/' then
      some (.text (String.ofList ('<' :: c :: cs.takeWhile isInline)),
        ⟨cs.dropWhile isInline, Nat.lt_succ_of_lt (Rest.afterRun isInline c cs).2⟩)
    else none
  | _ => none

/-- Reads a filter with its name. -/
def readFilter : Reader Token
  | ':' :: c :: cs =>
    if isWord c then
      some (.filter (String.ofList (c :: cs.takeWhile isWord)),
        ⟨cs.dropWhile isWord, Nat.lt_succ_of_lt (Rest.afterRun isWord c cs).2⟩)
    else none
  | _ => none

/-- Reads code: `=` and `!=` show its value, `-` hides it. -/
def readCode : Reader Token
  | '!' :: '=' :: cs =>
    (readLine cs).map fun (source, ⟨rest, h⟩) =>
      (.code (String.ofList source) true, ⟨rest, Nat.lt_succ_of_lt (Nat.lt_succ_of_lt h)⟩)
  | c :: cs =>
    if c = '=' || c = '-' then
      (readLine cs).map fun (source, ⟨rest, h⟩) =>
        (.code (String.ofList source) (c == '='), ⟨rest, length_lt_cons h⟩)
    else none
  | [] => none

/-- Reads a comment: `/!` shows it in the markup, `/` hides it. -/
def readComment : Reader Token := fun cs =>
  match h : cs.dropWhile isSpace with
  | '/' :: inner =>
    let buffered := inner.head? == some '!'
    let body := if buffered then inner.tail else inner
    some (.comment (String.ofList (line body)) buffered, ⟨afterLine body, by
      have h₁ := length_dropWhile_le isSpace cs
      have h₂ := length_dropWhile_le (· ≠ '\n') body
      have h₃ : body.length ≤ inner.length := by
        simp only [body]
        split <;> simp
      rw [h] at h₁
      simp only [List.length_cons] at h₁
      simp only [afterLine]
      omega⟩)
  | _ => none

/-- Reads a mark and the name behind it. -/
def readMarked (mark : Char) (make : String → Token) : Reader Token
  | m :: c :: cs =>
    if m = mark && isName c then
      some (make (String.ofList (c :: cs.takeWhile isName)),
        ⟨cs.dropWhile isName, Nat.lt_succ_of_lt (Rest.afterRun isName c cs).2⟩)
    else none
  | _ => none

/-- Whether a text starts like an attribute list: an opening parenthesis, and
behind it on the same line some text and a closing parenthesis. -/
def startsAttributes (cs : List Char) : Bool :=
  match cs.dropWhile isSpace with
  | '(' :: inner => ((line inner).drop 1).contains ')'
  | _ => false

/-- Reads an attribute list. -/
def readAttributes : Reader Token := fun cs =>
  match h : cs.dropWhile isSpace with
  | '(' :: inner =>
    if startsAttributes cs then
      (readClosing none 1 inner).map fun (body, ⟨rest, h'⟩) =>
        let raw := String.ofList (trim isBlank body)
        (.attributes raw (Attributes.parse raw), ⟨rest, by
          have h₁ := length_dropWhile_le isSpace cs
          rw [h] at h₁
          simp only [List.length_cons] at h₁
          omega⟩)
    else none
  | _ => none

/-- The readers for the tokens inside a line, in the order they are tried. -/
def readers : List (Reader Token) :=
  [readDoctype, readTag, readPipe, readMarkup, readFilter, readCode, readComment,
    readMarked '#' .idName, readMarked '.' .className, readAttributes]

/-- Reads a token inside a line. -/
def read : Reader Token := fun cs =>
  readers.findSome? fun reader => reader cs

/-- Turns `\(` into a parenthesis, and drops the spaces in front of it. -/
def unescapeParens : List Char → List Char
  | [] => []
  | '\\' :: '(' :: cs => '(' :: unescapeParens cs
  | c :: cs =>
    if isSpace c && "\\(".toList.isPrefixOf (cs.dropWhile isSpace) then unescapeParens cs
    else c :: unescapeParens cs

/-- Whether text may follow a token of this kind on its line. -/
def Kind.hostsText : Kind → Bool
  | .tag | .filter | .pipe | .attributes | .className | .idName => true
  | _ => false

/-- Reads the rest of a line as the text behind the token in front. -/
def readInlineText (last : Option Kind) : Reader Token := fun cs =>
  if last.any Kind.hostsText then
    (readLine cs).map fun (body, rest) => (.text (String.ofList (unescapeParens body)), rest)
  else none

end Offside.Token
