import Offside.Indentation
import Offside.Token.Read
import Offside.Token.Source

/-!
# Scanning a template

A scanner stands at a point of a template and yields its lexemes one after the
other (`Scanner.next`). Line breaks become indents, outdents and newlines by the
widths of the lines; the lines of a verbatim region become texts.

Every step reads a character, hands out a lexeme that was put aside, or closes a
level of indentation, until the end of the template is reached
(`size_lt_of_next`). So the list of all lexemes is finite (`Scanner.lexemes`).
-/

set_option autoImplicit false

namespace Offside

open Offside.Character

/-- What is wrong with a template on a line. -/
inductive ScanError where
  /-- A line is indented less than the one before, but not as far as an open level. -/
  | malformedIndentation (line : Nat)
  /-- No token starts here. -/
  | unknownToken (line : Nat)
deriving DecidableEq, Repr

namespace ScanError

/-- The line of the error. -/
def line : ScanError → Nat
  | malformedIndentation line => line
  | unknownToken line => line

/-- The text of the error. -/
def message : ScanError → String
  | malformedIndentation line => s!"malformed indentation on line {line}"
  | unknownToken line => s!"unknown token on line {line}"

end ScanError

/-- A verbatim region: the rest of the line that opens it and all deeper lines
below are text. -/
structure Region where
  /-- The width of the line that opened the region. -/
  base : Nat
  /-- The spaces in front of the text of the current line. -/
  padding : Nat := 0
  /-- Whether the current line is the one that opened the region. -/
  opening : Bool := true
deriving DecidableEq, Repr

/-- The text that a line stands for. On the opening line one space in front is
dropped; on the lines below a pipe and one space behind it are. -/
def Region.text (region : Region) (cs : List Char) : List Char :=
  List.replicate region.padding ' ' ++
    match region.opening, cs with
    | true, cs => dropOne ' ' cs
    | false, '|' :: cs => dropOne ' ' cs
    | false, cs => cs

/-- A point of a template, with what lies behind it as far as it matters for what
follows. -/
structure Scanner where
  layout : Layout
  /-- What has not been read yet. -/
  rest : List Char
  /-- The current line, counted from 1. -/
  line : Nat := 1
  /-- The open levels of indentation. -/
  indents : Indentation := {}
  /-- The verbatim region that is open. -/
  region : Option Region := none
  /-- The kind of the last token. -/
  last : Option Token.Kind := none
  /-- Lexemes to be handed out before anything more is read, first one first. -/
  deferred : List Lexeme := []
deriving DecidableEq, Repr

namespace Scanner

/-- A scanner at the start of a source. -/
def ofSource (layout : Layout) (source : String) : Scanner where
  layout := layout
  rest := Source.normalize layout source

/-- Puts a lexeme aside, behind those put aside before. -/
def defer (s : Scanner) (l : Lexeme) : Scanner :=
  { s with deferred := s.deferred ++ [l] }

/-- Hands out a lexeme. It may open a verbatim region. -/
def emit (s : Scanner) (l : Lexeme) : Except ScanError Lexeme × Scanner :=
  (.ok l,
    { s with
      region := if l.token.opensVerbatim then some { base := s.indents.current } else s.region
      last := some l.kind })

/-- Hands out a token that was read on the current line. -/
def yield (s : Scanner) (token : Token) : Except ScanError Lexeme × Scanner :=
  s.emit ⟨token, s.line⟩

/-- At the end of the template: closes the levels that are open, one at a time. -/
def finish (s : Scanner) : Except ScanError Lexeme × Scanner :=
  match s.indents.pop? with
  | some (_, indents) => { s with indents }.yield .outdent
  | none => s.yield .eos

/-- Compares the width of a new line with the open levels. -/
def indentTo (s : Scanner) (width : Nat) : Except ScanError Lexeme × Scanner :=
  if width = s.indents.current then s.yield .newline
  else if s.indents.current < width then
    { s with indents := s.indents.push width }.yield .indent
  else
    match s.indents.closeTo? width with
    | some (closed, indents) =>
      let others := List.replicate (closed - 1) (Lexeme.mk .outdent s.line)
      { s with indents, deferred := s.deferred ++ others }.yield .outdent
    | none => (.error (.malformedIndentation s.line), s)

/-- Goes on to the next line, which starts at `cs`. Inside a verbatim region,
blank and deeper lines only are indents; any other line closes the region. -/
def breakLine (s : Scanner) (cs : List Char) : Except ScanError Lexeme × Scanner :=
  let width := (cs.takeWhile isSpace).length
  let s := { s with rest := cs.dropWhile isSpace, line := s.line + 1 }
  let blank := s.rest.head? == some '\n'
  match s.region with
  | some region =>
    if blank then s.yield .indent
    else if region.base < width then
      let padding := width - (region.base + s.layout.tabWidth)
      { s with region := some { region with padding, opening := false } }.yield .indent
    else { s with region := none }.indentTo width
  | none => if blank then s.yield .newline else s.indentTo width

/-- Reads the rest of a line in a verbatim region. The attribute list of a filter
is not part of its region. -/
def readVerbatim (s : Scanner) : Reader Token := fun cs =>
  match s.region with
  | none => none
  | some region =>
    if region.opening && s.last == some .filter && Token.startsAttributes cs then none
    else
      (Token.readLine cs).map fun (body, rest) => (.text (String.ofList (region.text body)), rest)

/-- Reads a token inside a line. -/
def readInline (s : Scanner) : Reader Token := fun cs =>
  (s.readVerbatim cs).or ((Token.read cs).or (Token.readInlineText s.last cs))

/-- The next lexeme, or what is wrong, and the scanner behind it. -/
def next (s : Scanner) : Except ScanError Lexeme × Scanner :=
  match s.deferred, s.rest with
  | l :: deferred, _ => { s with deferred }.emit l
  | [], [] => s.finish
  | [], '\n' :: cs => s.breakLine cs
  | [], cs =>
    match s.readInline cs with
    | some (token, ⟨rest, _⟩) => { s with rest }.yield token
    | none => (.error (.unknownToken s.line), s)

/-! ### Scanning ends -/

/-- A bound on the number of lexemes that are left before the end. -/
def size (s : Scanner) : Nat :=
  2 * s.rest.length + s.indents.depth + s.deferred.length

theorem emit_eq {s s' : Scanner} {l l' : Lexeme} (h : s.emit l = (.ok l', s')) :
    l' = l ∧ s'.size = s.size := by
  simp only [emit, Prod.mk.injEq, Except.ok.injEq] at h
  obtain ⟨rfl, rfl⟩ := h
  exact ⟨rfl, rfl⟩

theorem size_lt_of_finish {s s' : Scanner} {l : Lexeme} (h : s.finish = (.ok l, s'))
    (hl : l.kind ≠ .eos) : s'.size < s.size := by
  unfold finish Indentation.pop? at h
  split at h
  · next _ indents hpop =>
    split at hpop
    · simp at hpop
    · next width opened hopened =>
      obtain ⟨-, rfl⟩ := by simpa using hpop
      rw [(emit_eq h).2]
      simp [size, Indentation.depth, hopened]
  · exact absurd (by rw [(emit_eq h).1]; rfl) hl

theorem size_le_of_indentTo {s s' : Scanner} {l : Lexeme} {width : Nat}
    (h : s.indentTo width = (.ok l, s')) : s'.size ≤ s.size + 1 := by
  unfold indentTo at h
  split at h
  · rw [(emit_eq h).2]
    exact Nat.le_succ _
  split at h
  · rw [(emit_eq h).2]
    simp only [size, Indentation.push, Indentation.depth]
    split <;> simp <;> omega
  split at h
  · next closed indents hclose =>
    rw [(emit_eq h).2]
    have hkept := (List.dropWhile_sublist (· ≠ width) (l := s.indents.opened)).length_le
    simp only [Indentation.closeTo?] at hclose
    split at hclose
    · simp only [Option.some.injEq, Prod.mk.injEq] at hclose
      obtain ⟨rfl, rfl⟩ := hclose
      simp only [size, Indentation.depth, List.length_append, List.length_replicate]
      omega
    · simp at hclose
  · simp at h

theorem size_lt_of_breakLine {s s' : Scanner} {l : Lexeme} {cs : List Char}
    (hs : s.rest.length = cs.length + 1) (h : s.breakLine cs = (.ok l, s')) : s'.size < s.size := by
  have hdrop := length_dropWhile_le isSpace cs
  unfold breakLine at h
  simp only at h
  split at h
  · split at h
    · rw [(emit_eq h).2]
      simp only [size]
      omega
    split at h
    · rw [(emit_eq h).2]
      simp only [size]
      omega
    · have := size_le_of_indentTo h
      simp only [size] at this ⊢
      omega
  · split at h
    · rw [(emit_eq h).2]
      simp only [size]
      omega
    · have := size_le_of_indentTo h
      simp only [size] at this ⊢
      omega

/-- Every lexeme but the end of the template leaves less to scan. -/
theorem size_lt_of_next {s s' : Scanner} {l : Lexeme} (h : s.next = (.ok l, s'))
    (hl : l.kind ≠ .eos) : s'.size < s.size := by
  unfold next at h
  split at h
  · next hdeferred =>
    rw [(emit_eq h).2]
    simp [size, hdeferred]
  · exact size_lt_of_finish h hl
  · next hrest => exact size_lt_of_breakLine (by simp [hrest]) h
  · split at h
    · next hlt _ =>
      rw [(emit_eq h).2]
      simp only [size]
      omega
    · simp at h

/-- All lexemes up to the end of the template, or the first thing that is wrong. -/
def lexemes (s : Scanner) : Except ScanError (List Lexeme) :=
  match h : s.next with
  | (.error e, _) => .error e
  | (.ok l, s') =>
    if hl : l.kind = .eos then .ok [l]
    else
      have : s'.size < s.size := size_lt_of_next h hl
      s'.lexemes.map (l :: ·)
termination_by s.size

end Scanner

/-- The lexemes of a template. -/
def tokenize (layout : Layout) (source : String) : Except ScanError (List Lexeme) :=
  (Scanner.ofSource layout source).lexemes

end Offside
