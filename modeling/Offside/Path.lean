import Offside.Character.Trim

/-!
# Paths

A path is made of bytes. They need not be the bytes of a text, but a path is shown as one, and
files are named after the text of others: `Path.text` puts a replacement character for bytes
that are none, one for each run of bytes that could have begun a character.
-/

set_option autoImplicit false

namespace Offside

/-- The bytes of a path, or of a name in one. -/
abbrev Path : Type :=
  List UInt8

namespace Path

/-- The byte between the names in a path. -/
def slash : UInt8 :=
  0x2f

/-- The byte that the names of the same and of the outer directory are made of. -/
def dot : UInt8 :=
  0x2e

/-- The bytes of a text. -/
def ofString (text : String) : Path :=
  text.toList.flatMap String.utf8EncodeChar

/-- How many bytes belong to a character behind its first byte, and the range of the first of
them. -/
def followers? (first : UInt8) : Option (Nat × UInt8 × UInt8) :=
  if first < 0xc2 then none
  else if first < 0xe0 then some (1, 0x80, 0xbf)
  else if first = 0xe0 then some (2, 0xa0, 0xbf)
  else if first = 0xed then some (2, 0x80, 0x9f)
  else if first < 0xf0 then some (2, 0x80, 0xbf)
  else if first = 0xf0 then some (3, 0x90, 0xbf)
  else if first < 0xf4 then some (3, 0x80, 0xbf)
  else if first = 0xf4 then some (3, 0x80, 0x8f)
  else none

/-- How many bytes could belong to a character behind its first byte. -/
def begun (first : UInt8) (bytes : Path) : Nat :=
  match followers? first, bytes with
  | some (count, low, high), second :: others =>
    if low ≤ second ∧ second ≤ high then
      1 + ((others.take (count - 1)).takeWhile fun byte => 0x80 ≤ byte ∧ byte ≤ 0xbf).length
    else 0
  | _, _ => 0

/-- The character whose bytes come first. -/
def char? (bytes : Path) : Option Char :=
  bytes.toByteArray.utf8DecodeChar? 0

/-- The characters of some bytes behind the first `skip`. -/
def chars (skip : Nat) : Path → List Char
  | [] => []
  | first :: bytes =>
    match skip with
    | skip + 1 => chars skip bytes
    | 0 =>
      match char? (first :: bytes) with
      | some c => c :: chars (c.utf8Size - 1) bytes
      | none => '\ufffd' :: chars (begun first bytes) bytes

/-- The text of a path, with replacement characters for what is none. -/
def text (path : Path) : String :=
  String.ofList (chars 0 path)

end Path

end Offside
