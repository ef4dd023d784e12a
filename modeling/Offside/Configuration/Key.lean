import Offside.Character.Digits
import Offside.Character.Reader

/-!
# Configuration keys

A key leads to a setting: `name.name` goes through tables by name, `name[index]`
into a list by position. Names that differ in case only are the same name.
-/

set_option autoImplicit false

namespace Offside.Configuration

open Offside.Character

/-- A step from a setting to one inside it. -/
inductive Key.Step where
  | name (name : String)
  /-- A position, counted from 0, or from the end if it is negative. -/
  | index (index : Int)
deriving DecidableEq, Repr

/-- The steps to a setting, outermost first. -/
abbrev Key : Type :=
  List Key.Step

/-- A name in lower case. -/
def lower (name : String) : String :=
  String.ofList (name.toList.map Char.toLower)

namespace Key

/-- The characters of a name in a key. -/
def isNamePart (c : Char) : Bool :=
  c.isAlphanum || c == ' ' || c == '_' || c == '-'

/-- A space or a tab. -/
def isGap (c : Char) : Bool :=
  c == ' ' || c == '\t'

/-- Reads a name. -/
def readName : Reader Step
  | [] => none
  | c :: cs =>
    if isNamePart c then
      let name := String.ofList (c :: cs.takeWhile isNamePart)
      some (.name (lower name), .afterRun isNamePart c cs)
    else none

/-- The position that digits stand for, if it fits into 64 bits. -/
def position? (negative : Bool) (digits : List Char) : Option Int :=
  let size : Int := ofDigits digits
  let position := if negative then -size else size
  if digits ≠ [] ∧ -0x8000000000000000 ≤ position ∧ position < 0x8000000000000000 then
    some position
  else none

/-- Reads a position and the bracket that closes it. -/
def readPosition : Reader Step := fun cs =>
  let inner := cs.dropWhile isGap
  let negative := inner.head? == some '-'
  let unsigned := if negative then inner.tail else inner
  let behind := (unsigned.dropWhile Char.isDigit).dropWhile isGap
  match position? negative (unsigned.takeWhile Char.isDigit), h : after? [']'] behind with
  | some position, some rest =>
    some (.index position, ⟨rest, by
      have h₁ := congrArg List.length (after?_eq_some_iff.1 h)
      have h₂ : behind.length ≤ (unsigned.dropWhile Char.isDigit).length :=
        length_dropWhile_le isGap _
      have h₃ := length_dropWhile_le Char.isDigit unsigned
      have h₄ : unsigned.length ≤ inner.length := by
        simp only [unsigned]
        split <;> simp
      have h₅ : inner.length ≤ cs.length := length_dropWhile_le isGap cs
      simp only [List.length_append, List.length_singleton] at h₁
      omega⟩)
  | _, _ => none

/-- Reads a step behind a setting. -/
def readStep : Reader Step
  | '.' :: cs => (readName cs).map fun (step, ⟨rest, h⟩) => (step, ⟨rest, length_lt_cons h⟩)
  | '[' :: cs =>
    (readPosition cs).map fun (step, ⟨rest, h⟩) => (step, ⟨rest, length_lt_cons h⟩)
  | _ => none

/-- The key that a text stands for: a name, and nothing but steps behind it. -/
def parse? (text : String) : Option Key := do
  let (first, ⟨rest, _⟩) ← readName text.toList
  let others ← (cut readStep rest).mapM fun
    | .span step => some step
    | .char _ => none
  return first :: others

end Key

end Offside.Configuration
