import Offside.Token.Scanner

/-!
# Streams of lexemes

A scanner with lookahead: lexemes can be looked at before they are taken
(`Stream.predict`), and lexemes can be put aside for later (`Stream.defer`). What
was looked at comes first, then what was put aside, then what is newly scanned.
-/

set_option autoImplicit false

namespace Offside

/-- A scanner, and the lexemes that were looked at but not taken. -/
structure Stream where
  scanner : Scanner
  /-- Lexemes that were scanned but not taken, first one first. -/
  ahead : List Lexeme := []
deriving DecidableEq, Repr

namespace Stream

/-- The stream of a source. -/
def ofSource (layout : Layout) (source : String) : Stream where
  scanner := Scanner.ofSource layout source

/-- The line that scanning has reached. -/
def line (s : Stream) : Nat :=
  s.scanner.line

/-- Takes the next lexeme. -/
def advance (s : Stream) : Except ScanError Lexeme × Stream :=
  match s.ahead with
  | l :: ahead => (.ok l, { s with ahead })
  | [] =>
    let (result, scanner) := s.scanner.next
    (result, { s with scanner })

/-- The lexeme `n` places behind the next one. What has to be scanned on the way
is kept, also when scanning fails. -/
def lookAhead : Nat → Stream → Except ScanError Lexeme × Stream
  | 0, ⟨scanner, l :: ahead⟩ => (.ok l, ⟨scanner, l :: ahead⟩)
  | n + 1, ⟨scanner, l :: ahead⟩ =>
    let (result, s) := lookAhead n ⟨scanner, ahead⟩
    (result, { s with ahead := l :: s.ahead })
  | 0, ⟨scanner, []⟩ =>
    match scanner.next with
    | (.ok l, scanner) => (.ok l, ⟨scanner, [l]⟩)
    | (.error e, scanner) => (.error e, ⟨scanner, []⟩)
  | n + 1, ⟨scanner, []⟩ =>
    match scanner.next with
    | (.ok l, scanner) =>
      let (result, s) := lookAhead n ⟨scanner, []⟩
      (result, { s with ahead := l :: s.ahead })
    | (.error e, scanner) => (.error e, ⟨scanner, []⟩)

/-- Looks at the `n`-th lexeme that follows, counted from 1, and at the first for
`n = 0`. -/
def predict (s : Stream) (n : Nat) : Except ScanError Lexeme × Stream :=
  s.lookAhead (n - 1)

/-- Puts a lexeme aside, behind those put aside before. -/
def defer (s : Stream) (l : Lexeme) : Stream :=
  { s with scanner := s.scanner.defer l }

/-- A bound on the number of lexemes that are left before the end. -/
def size (s : Stream) : Nat :=
  s.ahead.length + s.scanner.size

end Stream

end Offside
