import Offside.Configuration.Tree

/-!
# Configuration files

A configuration file has one setting a line, `name = value`, under the name of its
section in brackets. A value is a whole number, `true`, `false` or a text in
double quotes. A hash starts a comment. No name is set twice.
-/

set_option autoImplicit false

namespace Offside.Configuration.Tree

open Offside.Character
open Offside.Configuration.Key (isGap)

/-- The characters of a name. -/
def isKey (c : Char) : Bool :=
  c.isAlphanum || c == '_' || c == '-'

/-- The characters of comments and texts: all but controls other than the tab. -/
def isContent (c : Char) : Bool :=
  c == '\t' || (0x20 ≤ c.toNat && c.toNat != 0x7f)

/-- Whether nothing but a comment follows on a line. -/
def endsLine (cs : List Char) : Bool :=
  match cs.dropWhile isGap with
  | [] => true
  | c :: cs => c == '#' && cs.all isContent

/-- Reads a name at the start of a text. -/
def readKey? (cs : List Char) : Option (String × List Char) :=
  let key := cs.takeWhile isKey
  if key = [] then none else some (String.ofList key, cs.dropWhile isKey)

/-- Whether digits are written without a leading zero. -/
def isPlainNumber (digits : List Char) : Bool :=
  digits == ['0'] || digits.head?.any (· != '0')

/-- Reads a whole number that fits into 64 bits. -/
def readNumber? (cs : List Char) : Option (Tree × List Char) :=
  let (negative, cs) :=
    match cs with
    | '-' :: cs => (true, cs)
    | '+' :: cs => (false, cs)
    | cs => (false, cs)
  let digits := cs.takeWhile Char.isDigit
  if isPlainNumber digits then
    let size : Int := ofDigits digits
    let value := if negative then -size else size
    if -0x8000000000000000 ≤ value ∧ value < 0x8000000000000000 then
      some (.number value, cs.dropWhile Char.isDigit)
    else none
  else none

/-- Reads a value. -/
def readValue? (cs : List Char) : Option (Tree × List Char) :=
  match cs with
  | '"' :: cs =>
    match upTo '"' cs with
    | some (body, ⟨rest, _⟩) =>
      if body.all fun c => isContent c && c != '\\' then some (.text (String.ofList body), rest)
      else none
    | none => none
  | cs =>
    match after? "true".toList cs, after? "false".toList cs with
    | some rest, _ => some (.flag true, rest)
    | _, some rest => some (.flag false, rest)
    | _, _ => readNumber? cs

/-- A line of a configuration file. -/
inductive Line where
  | blank
  | header (name : String)
  | entry (key : String) (value : Tree)

/-- Reads a line. -/
def readLine? (cs : List Char) : Option Line :=
  let cs := cs.dropWhile isGap
  if endsLine cs then some .blank
  else
    match cs with
    | '[' :: cs => do
      let (name, cs) ← readKey? (cs.dropWhile isGap)
      let cs ← after? [']'] (cs.dropWhile isGap)
      if endsLine cs then some (.header name) else none
    | cs => do
      let (key, cs) ← readKey? cs
      let cs ← after? ['='] (cs.dropWhile isGap)
      let (value, cs) ← readValue? (cs.dropWhile isGap)
      if endsLine cs then some (.entry key value) else none

/-- Adds the settings of some lines to those of the lines before, in the section
that is open. -/
def readLines? (root : List (String × Tree)) (current : Option String) :
    List (List Char) → Option Tree
  | [] => some (.table root)
  | cs :: lines =>
    match readLine? cs, current with
    | none, _ => none
    | some .blank, _ => readLines? root current lines
    | some (.header name), _ =>
      if (root.lookup name).isSome then none
      else readLines? (Entries.set name (.table []) root) (some name) lines
    | some (.entry key value), none =>
      if (root.lookup key).isSome then none
      else readLines? (Entries.set key value root) none lines
    | some (.entry key value), some name =>
      let s := (root.lookup name).getD (.table [])
      if (s.get? key).isSome then none
      else readLines? (Entries.set name (s.insert key value) root) (some name) lines

/-- The lines of a text. A line ends in `\n` or `\r\n`. -/
def lines (cs : List Char) : List (List Char) :=
  let joined := cs.splitOn '\n'
  joined.dropLast.map (fun line => if line.getLast? = some '\r' then line.dropLast else line) ++
    joined.getLast?.toList

/-- The settings of a configuration file. A byte order mark in front is skipped. -/
def parse? (text : String) : Option Tree :=
  readLines? [] none (lines (dropOne '\ufeff' text.toList))

end Offside.Configuration.Tree
