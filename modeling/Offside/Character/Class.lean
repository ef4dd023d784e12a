import Offside.Character.HiddenTable
import Offside.Character.WordTable

/-!
# Character classes

The classes of characters the template language is written in terms of: word
characters, which names are made of, and blank characters, which are trimmed
around values. Hidden characters are spelled out where a text is listed. All are
total on all of Unicode.
-/

set_option autoImplicit false

namespace Offside.Character

/-- Whether a number is in one of the runs that count, where runs that do not count and runs
that do alternate. -/
def inRuns (counts : Bool) : List Nat → Nat → Bool
  | [], _ => false
  | length :: lengths, n =>
    if n < length then counts else inRuns (!counts) lengths (n - length)

/-- Word characters: letters, marks, decimal digits, connectors such as `_`, and
the join controls. ASCII is decided without looking at the table. -/
def isWord (c : Char) : Bool :=
  if c.toNat < 0x80 then c.isAlphanum || c == '_'
  else inRuns false wordRuns (c.toNat - 0x80)

/-- The characters inside a class or id name: word characters and the dash. -/
def isName (c : Char) : Bool :=
  isWord c || c == '-'

/-- The characters inside a tag name, after its first: those of a name, and the
colon. -/
def isTagName (c : Char) : Bool :=
  isName c || c == ':'

/-- Blank characters: those with the Unicode property White_Space. -/
def isBlank (c : Char) : Bool :=
  let n := c.toNat
  (0x09 ≤ n && n ≤ 0x0d) || n == 0x20 || n == 0x85 || n == 0xa0 || n == 0x1680 ||
    (0x2000 ≤ n && n ≤ 0x200a) || n == 0x2028 || n == 0x2029 || n == 0x202f ||
    n == 0x205f || n == 0x3000

/-- Hidden characters: those that do not show as a character of their own. A plain
space is not hidden, all other separators are. -/
def isHidden (c : Char) : Bool :=
  if c.toNat < 0x80 then c.toNat < 0x20 || c.toNat == 0x7f
  else inRuns false hiddenRuns (c.toNat - 0x80)

/-- A plain space, the only character that counts as indentation. -/
def isSpace (c : Char) : Bool :=
  c == ' '

end Offside.Character
