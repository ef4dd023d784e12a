import Offside.Attribute.Parenthesis
import Offside.Character.Digits
import Offside.Interpolation

/-!
# Placeholders

Quoted texts and interpolations may contain the characters that divide an
attribute list. They are swapped for numbered placeholders before the list is
split (`substitute`) and put back afterwards (`restore`).

An interpolation becomes `{n}`, a double-quoted text `{<n>}` and a single-quoted
text `{<<n>>}`, where `n` counts the texts of that kind from zero.
-/

set_option autoImplicit false

namespace Offside.Attribute

open Offside.Character

/-- The kinds of text that placeholders stand for. -/
inductive Mark where
  | interpolation
  | double
  | single
deriving DecidableEq, Repr

namespace Mark

/-- What a placeholder starts with. -/
def opening : Mark → List Char
  | interpolation => ['{']
  | double => ['{', '<']
  | single => ['{', '<', '<']

/-- What a placeholder ends with. -/
def closing : Mark → List Char
  | interpolation => ['}']
  | double => ['>', '}']
  | single => ['>', '>', '}']

/-- The placeholder with the given digits. -/
def holder (m : Mark) (digits : List Char) : List Char :=
  m.opening ++ digits ++ m.closing

/-- Reads a placeholder and returns its digits. -/
def readHolder (m : Mark) : Reader (List Char) := fun cs =>
  match h : after? m.opening cs with
  | none => none
  | some inner =>
    let digits := inner.takeWhile Char.isDigit
    if digits = [] then none
    else
      match h' : after? m.closing (inner.dropWhile Char.isDigit) with
      | none => none
      | some rest =>
        some (digits, ⟨rest, by
          have h₁ := after?_eq_some_iff.1 h
          have h₂ := congrArg List.length (after?_eq_some_iff.1 h')
          have h₃ := length_dropWhile_le Char.isDigit inner
          subst h₁
          cases m <;> simp [opening, closing] at h₂ ⊢ <;> omega⟩)

/-- Reads a text of the given kind, as it is recorded: an interpolation as it is
written, a quoted text without its quotes. -/
def readText : Mark → Reader (List Char)
  | interpolation => fun cs =>
    (Interpolation.readLive cs).map fun (expression, rest) =>
      ('#' :: '{' :: expression ++ ['}'], rest)
  | double => readQuoted '"'
  | single => readQuoted '\''
where
  /-- Reads a text between two quotes of one kind. -/
  readQuoted (quote : Char) : Reader (List Char)
    | [] => none
    | c :: cs =>
      if c = quote then
        match upTo quote cs with
        | some (body, ⟨rest, h⟩) => some (body, ⟨rest, length_lt_cons h⟩)
        | none => none
      else none

/-- A recorded text as it is put back inside a longer text: quoted texts get
their quotes again. -/
def requote : Mark → List Char → List Char
  | interpolation, text => text
  | double, text => '"' :: text ++ ['"']
  | single, text => '\'' :: text ++ ['\'']

end Mark

/-- The texts that placeholders stand for, by kind and number. -/
structure Placeholders where
  interpolations : List (List Char)
  doubles : List (List Char)
  singles : List (List Char)
deriving DecidableEq, Repr

namespace Placeholders

/-- The recorded texts of one kind. -/
def texts (p : Placeholders) : Mark → List (List Char)
  | .interpolation => p.interpolations
  | .double => p.doubles
  | .single => p.singles

/-- The recorded text that a placeholder's digits stand for. -/
def get? (p : Placeholders) (m : Mark) (digits : List Char) : Option (List Char) :=
  (p.texts m)[ofDigits digits]?

/-- Writes the `n`-th placeholder for the first span, the next for the second,
and so on. -/
def number (m : Mark) (n : Nat) : List (Piece (List Char)) → List Char
  | [] => []
  | .char c :: pieces => c :: number m n pieces
  | .span _ :: pieces => m.holder (Nat.toDigits 10 n) ++ number m (n + 1) pieces

/-- Swaps every text of one kind for its placeholder. -/
def swap (m : Mark) (cs : List Char) : List Char :=
  number m 0 (cut m.readText cs)

/-- Swaps interpolations, then double-quoted texts, then single-quoted texts for
placeholders, and records them. -/
def substitute (raw : List Char) : Placeholders × List Char :=
  let unspliced := swap .interpolation raw
  let undoubled := swap .double unspliced
  ({ interpolations := spans (Mark.readText .interpolation) raw
     doubles := spans (Mark.readText .double) unspliced
     singles := spans (Mark.readText .single) undoubled },
    swap .single undoubled)

/-- Puts every text of one kind back. A placeholder without a recorded text
stays as it is. -/
def putBack (p : Placeholders) (m : Mark) (cs : List Char) : List Char :=
  replaceSpans m.readHolder
    (fun digits =>
      match p.get? m digits with
      | some text => m.requote text
      | none => m.holder digits) cs

/-- The digits of the placeholder that a text consists of, if it is one. -/
def whole? (m : Mark) (cs : List Char) : Option (List Char) :=
  match m.readHolder cs with
  | some (digits, ⟨[], _⟩) => some digits
  | _ => none

/-- The text that a single placeholder for a quoted text stands for, without its
quotes; any other text as it is. -/
def unquote (p : Placeholders) (cs : List Char) : List Char :=
  match whole? .single cs with
  | some digits => (p.get? .single digits).getD cs
  | none =>
    match whole? .double cs with
    | some digits => (p.get? .double digits).getD cs
    | none => cs

/-- Puts the recorded texts back, and trims spaces. A text that is one placeholder
as a whole loses its quotes; inside a longer text they are kept. -/
def restore (p : Placeholders) (cs : List Char) : List Char :=
  let singles := p.putBack .single (p.unquote (trim isSpace cs))
  let doubles := p.putBack .double singles
  p.putBack .interpolation doubles

end Placeholders

end Offside.Attribute
