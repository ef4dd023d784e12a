import Offside.Token.Scanner

/-!
# One step of a scanner

`Scanner.next` tries the sources of a lexeme in a fixed order. `Scanner.Step` lists
what can come of it, one constructor for each outcome, failures included, and
`step_next` says that nothing else can. Later modules take a step apart with
`cases` and never unfold `next`.

Two facts about the tokens inside a line are proved on the way:

* `isInline_of_readInline`: no token inside a line opens or closes a level, breaks a
  line or ends the template.
* `readInline_of_region`: inside a verbatim region the rest of a line is a text, apart
  from the attribute list directly behind a filter.
-/

set_option autoImplicit false

namespace Offside

open Offside.Character

/-! ### Tokens inside a line -/

namespace Token

/-- Every token that a reader reads is of the given kind. -/
def ReadsKind (reader : Reader Token) (kind : Kind) : Prop :=
  ∀ ⦃cs : List Char⦄ ⦃t : Token⦄ ⦃r : Rest cs⦄, reader cs = some (t, r) → t.kind = kind

theorem reads_doctype : ReadsKind readDoctype .doctype := by
  intro cs t r h
  unfold readDoctype at h
  split at h <;> cases h
  rfl

theorem reads_tag : ReadsKind readTag .tag := by
  intro cs t r h
  unfold readTag at h
  (repeat' split at h) <;> cases h
  rfl

theorem reads_pipe : ReadsKind readPipe .pipe := by
  intro cs t r h
  unfold readPipe at h
  split at h <;> cases h
  rfl

theorem reads_markup : ReadsKind readMarkup .text := by
  intro cs t r h
  unfold readMarkup at h
  (repeat' split at h) <;> cases h
  rfl

theorem reads_filter : ReadsKind readFilter .filter := by
  intro cs t r h
  unfold readFilter at h
  (repeat' split at h) <;> cases h
  rfl

theorem reads_code : ReadsKind readCode .code := by
  intro cs t r h
  unfold readCode at h
  split at h
  · obtain ⟨out, -, heq⟩ := Option.map_eq_some_iff.1 h
    cases heq
    rfl
  · split at h
    · obtain ⟨out, -, heq⟩ := Option.map_eq_some_iff.1 h
      cases heq
      rfl
    · cases h
  · cases h

theorem reads_comment : ReadsKind readComment .comment := by
  intro cs t r h
  unfold readComment at h
  split at h <;> cases h
  rfl

theorem reads_marked (mark : Char) {make : String → Token} {kind : Kind}
    (hmake : ∀ name, (make name).kind = kind) : ReadsKind (readMarked mark make) kind := by
  intro cs t r h
  unfold readMarked at h
  (repeat' split at h) <;> cases h
  exact hmake _

theorem reads_idName : ReadsKind (readMarked '#' .idName) .idName :=
  reads_marked '#' fun _ => rfl

theorem reads_className : ReadsKind (readMarked '.' .className) .className :=
  reads_marked '.' fun _ => rfl

theorem reads_attributes : ReadsKind readAttributes .attributes := by
  intro cs t r h
  unfold readAttributes at h
  split at h
  · split at h
    · obtain ⟨out, -, heq⟩ := Option.map_eq_some_iff.1 h
      cases heq
      rfl
    · cases h
  · cases h

/-- The kinds of tokens that stand inside a line. -/
def Kind.isInline : Kind → Bool
  | .indent | .outdent | .newline | .eos => false
  | _ => true

/-- A token that is read as such stands inside a line, and is no text unless it is markup. -/
theorem kind_of_read {cs : List Char} {t : Token} {r : Rest cs} (h : read cs = some (t, r)) :
    t.kind.isInline = true ∧ (t.kind = .text → readMarkup cs ≠ none) := by
  obtain ⟨reader, hmem, h⟩ := List.exists_of_findSome?_eq_some h
  simp only [readers, List.mem_cons, List.not_mem_nil, or_false] at hmem
  -- One reader after the other, in the order in which they are tried.
  obtain rfl | rfl | rfl | rfl | rfl | rfl | rfl | rfl | rfl | rfl := hmem
  · rw [reads_doctype h]; exact ⟨rfl, by rintro ⟨⟩⟩
  · rw [reads_tag h]; exact ⟨rfl, by rintro ⟨⟩⟩
  · rw [reads_pipe h]; exact ⟨rfl, by rintro ⟨⟩⟩
  · rw [reads_markup h]; exact ⟨rfl, fun _ hnone => by rw [h] at hnone; cases hnone⟩
  · rw [reads_filter h]; exact ⟨rfl, by rintro ⟨⟩⟩
  · rw [reads_code h]; exact ⟨rfl, by rintro ⟨⟩⟩
  · rw [reads_comment h]; exact ⟨rfl, by rintro ⟨⟩⟩
  · rw [reads_idName h]; exact ⟨rfl, by rintro ⟨⟩⟩
  · rw [reads_className h]; exact ⟨rfl, by rintro ⟨⟩⟩
  · rw [reads_attributes h]; exact ⟨rfl, by rintro ⟨⟩⟩

theorem readMarked_cons_of_ne {mark c : Char} {make : String → Token} {cs : List Char}
    (h : c ≠ mark) : readMarked mark make (c :: cs) = none := by
  cases cs <;> simp [readMarked, h]

/-- Where an attribute list seems to start, no other reader finds a token: all the
others start at a character that is neither a space nor a parenthesis. -/
theorem kind_of_read_of_startsAttributes {cs : List Char} {t : Token} {r : Rest cs}
    (hs : startsAttributes cs) (h : read cs = some (t, r)) : t.kind = .attributes := by
  have hdrop : ∃ inner, cs.dropWhile isSpace = '(' :: inner := by
    unfold startsAttributes at hs
    split at hs
    · next inner heq => exact ⟨inner, heq⟩
    · simp at hs
  obtain ⟨inner, hdrop⟩ := hdrop
  -- The first character is enough to rule the other readers out.
  have hhead : ∃ c cs', cs = c :: cs' ∧ (c = ' ' ∨ c = '(') := by
    cases cs with
    | nil => simp at hdrop
    | cons c cs' =>
      refine ⟨c, cs', rfl, ?_⟩
      by_cases hc : c = ' '
      · exact .inl hc
      · have : isSpace c = false := by simp [isSpace, hc]
        rw [List.dropWhile_cons_of_neg (by simp [this])] at hdrop
        exact .inr (List.cons.inj hdrop).1
  obtain ⟨c, cs', rfl, hc⟩ := hhead
  obtain ⟨reader, hmem, h⟩ := List.exists_of_findSome?_eq_some h
  simp only [readers, List.mem_cons, List.not_mem_nil, or_false] at hmem
  obtain rfl | rfl | rfl | rfl | rfl | rfl | rfl | rfl | rfl | rfl := hmem
  · rcases hc with rfl | rfl <;> simp [readDoctype, after?] at h
  · rcases hc with rfl | rfl <;> simp [readTag, isWord] at h
  · rcases hc with rfl | rfl <;> simp [readPipe] at h
  · rcases hc with rfl | rfl <;> simp [readMarkup] at h
  · rcases hc with rfl | rfl <;> simp [readFilter] at h
  · rcases hc with rfl | rfl <;> simp [readCode] at h
  · rcases hc with rfl | rfl <;> simp [readComment, hdrop] at h
  · rcases hc with rfl | rfl <;> simp [readMarked_cons_of_ne] at h
  · rcases hc with rfl | rfl <;> simp [readMarked_cons_of_ne] at h
  · exact reads_attributes h

end Token

namespace Scanner

theorem isInline_of_readInline {s : Scanner} {cs : List Char} {t : Token} {r : Rest cs}
    (h : s.readInline cs = some (t, r)) : t.kind.isInline := by
  unfold readInline at h
  -- A line is tried as verbatim text, then as a token, then as the text of a tag.
  rcases Option.or_eq_some_iff.1 h with h | ⟨-, h⟩
  · unfold readVerbatim at h
    split at h
    · simp at h
    · split at h
      · simp at h
      · obtain ⟨⟨body, rest⟩, -, h⟩ := Option.map_eq_some_iff.1 h
        rw [← (Prod.mk.inj h).1]
        rfl
  · rcases Option.or_eq_some_iff.1 h with h | ⟨-, h⟩
    · exact (Token.kind_of_read h).1
    · unfold Token.readInlineText at h
      split at h
      · obtain ⟨⟨body, rest⟩, -, h⟩ := Option.map_eq_some_iff.1 h
        rw [← (Prod.mk.inj h).1]
        rfl
      · simp at h

/-- A token of any other kind does not stand inside a line. -/
theorem kind_ne_of_readInline {s : Scanner} {cs : List Char} {t : Token} {r : Rest cs}
    {kind : Token.Kind} (h : s.readInline cs = some (t, r)) (hkind : kind.isInline = false) :
    t.kind ≠ kind := by
  intro heq
  have hinline := isInline_of_readInline h
  rw [heq, hkind] at hinline
  cases hinline

/-- Inside a verbatim region, what is read inside a line is a text, unless it is the
attribute list directly behind the filter that opened the region. -/
theorem readInline_of_region {s : Scanner} {region : Region} {c : Char} {cs cs' : List Char}
    {t : Token} {r : Rest cs'} (hregion : s.region = some region) (hcs : cs' = c :: cs)
    (hc : c ≠ '\n') (h : s.readInline cs' = some (t, r)) :
    t.kind = .text ∨
      t.kind = .attributes ∧ region.opening = true ∧ s.last = some .filter := by
  subst hcs
  -- As verbatim text the line would not be declined, since it is not empty.
  have hline : Token.readLine (c :: cs) =
      some (c :: cs.takeWhile Token.isInline, .afterRun Token.isInline c cs) := by
    simp [Token.readLine, Token.isInline, hc]
  unfold readInline readVerbatim at h
  simp only [hregion] at h
  split at h
  · next hopen =>
    -- The region leaves the line to the other readers only behind a filter.
    simp only [Bool.and_eq_true, beq_iff_eq] at hopen
    rw [Option.none_or] at h
    rcases Option.or_eq_some_iff.1 h with h | ⟨-, h⟩
    · exact .inr ⟨Token.kind_of_read_of_startsAttributes hopen.2 h, hopen.1⟩
    · unfold Token.readInlineText at h
      split at h
      · obtain ⟨⟨body, rest⟩, -, h⟩ := Option.map_eq_some_iff.1 h
        rw [← (Prod.mk.inj h).1]
        exact .inl rfl
      · simp at h
  · rw [hline, Option.map_some, Option.some_or] at h
    rw [← (Prod.mk.inj (Option.some.inj h)).1]
    exact .inl rfl

/-! ### What a step can do -/

/-- The width of the line that starts at `cs`: the spaces in front. -/
def lineWidth (cs : List Char) : Nat :=
  (cs.takeWhile isSpace).length

/-- Whether the line that starts at `cs` holds spaces only, and another line follows. -/
def isBlankLine (cs : List Char) : Bool :=
  (cs.dropWhile isSpace).head? == some '\n'

/-- The scanner behind the spaces of the next line, which starts at `cs`. -/
def toLine (s : Scanner) (cs : List Char) : Scanner :=
  { s with rest := cs.dropWhile isSpace, line := s.line + 1 }

section

variable (s : Scanner) (cs : List Char)

@[simp] theorem rest_toLine : (s.toLine cs).rest = cs.dropWhile isSpace := rfl

@[simp] theorem indents_toLine : (s.toLine cs).indents = s.indents := rfl

@[simp] theorem region_toLine : (s.toLine cs).region = s.region := rfl

@[simp] theorem deferred_toLine : (s.toLine cs).deferred = s.deferred := rfl

end

/-- What `next` can do. Line breaks come in seven forms: two inside a verbatim
region, one for blank lines outside, and four for a line that is compared with the
open levels, which closes a region if one was open. -/
inductive Step (s : Scanner) : Except ScanError Lexeme → Scanner → Prop
  /-- Hands out a lexeme that was put aside. -/
  | deferred (l : Lexeme) (ls : List Lexeme) (hdeferred : s.deferred = l :: ls) :
    Step s (.ok l) ({ s with deferred := ls }.emit l).2
  /-- Closes a level at the end of the template. -/
  | close (width : Nat) (opened : List Nat) (hdeferred : s.deferred = []) (hrest : s.rest = [])
      (hopened : s.indents.opened = width :: opened) :
    Step s (.ok ⟨.outdent, s.line⟩) { s with indents := ⟨opened⟩, last := some .outdent }
  /-- Ends the template. -/
  | eos (hdeferred : s.deferred = []) (hrest : s.rest = []) (hopened : s.indents.opened = []) :
    Step s (.ok ⟨.eos, s.line⟩) { s with last := some .eos }
  /-- Reads a token inside a line. -/
  | token (c : Char) (cs : List Char) (token : Token) (rest : Rest s.rest)
      (hdeferred : s.deferred = []) (hrest : s.rest = c :: cs) (hc : c ≠ '\n')
      (hread : s.readInline s.rest = some (token, rest)) :
    Step s (.ok ⟨token, s.line⟩) ({ s with rest := rest.1 }.emit ⟨token, s.line⟩).2
  /-- Finds no token. -/
  | unknown (c : Char) (cs : List Char) (hdeferred : s.deferred = []) (hrest : s.rest = c :: cs)
      (hc : c ≠ '\n') (hread : s.readInline s.rest = none) :
    Step s (.error (.unknownToken s.line)) s
  /-- Passes a blank line outside of verbatim regions. -/
  | blank (cs : List Char) (hdeferred : s.deferred = []) (hrest : s.rest = '\n' :: cs)
      (hregion : s.region = none) (hblank : isBlankLine cs) :
    Step s (.ok ⟨.newline, s.line + 1⟩) { s.toLine cs with last := some .newline }
  /-- Passes a blank line of a verbatim region. -/
  | verbatimBlank (cs : List Char) (region : Region) (hdeferred : s.deferred = [])
      (hrest : s.rest = '\n' :: cs) (hregion : s.region = some region) (hblank : isBlankLine cs) :
    Step s (.ok ⟨.indent, s.line + 1⟩) { s.toLine cs with last := some .indent }
  /-- Goes on to a deeper line of a verbatim region. -/
  | verbatimLine (cs : List Char) (region : Region) (hdeferred : s.deferred = [])
      (hrest : s.rest = '\n' :: cs) (hregion : s.region = some region)
      (hblank : isBlankLine cs = false) (hwidth : region.base < lineWidth cs) :
    Step s (.ok ⟨.indent, s.line + 1⟩)
      { s.toLine cs with
        region := some { region with
          padding := lineWidth cs - (region.base + s.layout.tabWidth), opening := false }
        last := some .indent }
  /-- Goes on to a line of the current width. -/
  | same (cs : List Char) (hdeferred : s.deferred = []) (hrest : s.rest = '\n' :: cs)
      (hregion : ∀ region, s.region = some region → lineWidth cs ≤ region.base)
      (hblank : isBlankLine cs = false) (hwidth : lineWidth cs = s.indents.current) :
    Step s (.ok ⟨.newline, s.line + 1⟩)
      { s.toLine cs with region := none, last := some .newline }
  /-- Goes on to a deeper line and opens a level. -/
  | deeper (cs : List Char) (hdeferred : s.deferred = []) (hrest : s.rest = '\n' :: cs)
      (hregion : ∀ region, s.region = some region → lineWidth cs ≤ region.base)
      (hblank : isBlankLine cs = false) (hwidth : s.indents.current < lineWidth cs) :
    Step s (.ok ⟨.indent, s.line + 1⟩)
      { s.toLine cs with
        region := none, indents := s.indents.push (lineWidth cs), last := some .indent }
  /-- Goes on to a shallower line and closes levels. -/
  | shallower (cs : List Char) (closed : Nat) (indents : Indentation) (hdeferred : s.deferred = [])
      (hrest : s.rest = '\n' :: cs)
      (hregion : ∀ region, s.region = some region → lineWidth cs ≤ region.base)
      (hblank : isBlankLine cs = false) (hwidth : lineWidth cs < s.indents.current)
      (hclose : s.indents.closeTo? (lineWidth cs) = some (closed, indents)) :
    Step s (.ok ⟨.outdent, s.line + 1⟩)
      { s.toLine cs with
        region := none
        indents := indents
        deferred := List.replicate (closed - 1) ⟨.outdent, s.line + 1⟩
        last := some .outdent }
  /-- Fails on a shallower line whose width is no open level. -/
  | malformed (cs : List Char) (hdeferred : s.deferred = []) (hrest : s.rest = '\n' :: cs)
      (hregion : ∀ region, s.region = some region → lineWidth cs ≤ region.base)
      (hblank : isBlankLine cs = false) (hwidth : lineWidth cs < s.indents.current)
      (hclose : s.indents.closeTo? (lineWidth cs) = none) :
    Step s (.error (.malformedIndentation (s.line + 1))) { s.toLine cs with region := none }

/-- A line that no region claims is compared with the open levels. -/
theorem step_indentTo {s : Scanner} {cs : List Char} (hdeferred : s.deferred = [])
    (hrest : s.rest = '\n' :: cs)
    (hregion : ∀ region, s.region = some region → lineWidth cs ≤ region.base)
    (hblank : isBlankLine cs = false) :
    Step s ({ s.toLine cs with region := none }.indentTo (lineWidth cs)).1
      ({ s.toLine cs with region := none }.indentTo (lineWidth cs)).2 := by
  -- The width is compared with the current level: the same, deeper or shallower.
  unfold indentTo
  split
  · next hwidth => exact .same cs hdeferred hrest hregion hblank hwidth
  · next hne =>
    split
    · next hwidth => exact .deeper cs hdeferred hrest hregion hblank hwidth
    · next hle =>
      have hwidth : lineWidth cs < s.indents.current :=
        Nat.lt_of_le_of_ne (Nat.le_of_not_lt hle) hne
      split
      · next closed indents hclose =>
        have h := Step.shallower cs closed indents hdeferred hrest hregion hblank hwidth hclose
        simpa [yield, emit, toLine, hdeferred, Token.opensVerbatim, Lexeme.kind, Token.kind] using h
      · next hclose => exact .malformed cs hdeferred hrest hregion hblank hwidth hclose

theorem step_breakLine {s : Scanner} {cs : List Char} (hdeferred : s.deferred = [])
    (hrest : s.rest = '\n' :: cs) : Step s (s.breakLine cs).1 (s.breakLine cs).2 := by
  unfold breakLine
  simp only
  split
  · next region hregion =>
    split
    · next hblank => exact .verbatimBlank cs region hdeferred hrest hregion hblank
    · next hblank =>
      have hblank : isBlankLine cs = false := by simpa [isBlankLine] using hblank
      -- A line that is not deeper than the region closes it and is then like any other.
      split
      · next hwidth => exact .verbatimLine cs region hdeferred hrest hregion hblank hwidth
      · next hwidth =>
        refine step_indentTo hdeferred hrest ?_ hblank
        intro region' hregion'
        rw [Option.some.inj (hregion'.symm.trans hregion)]
        exact Nat.le_of_not_lt hwidth
  · next hregion =>
    have hregion : s.region = none := hregion
    split
    · next hblank => exact .blank cs hdeferred hrest hregion hblank
    · next hblank =>
      have hblank : isBlankLine cs = false := by simpa [isBlankLine] using hblank
      have h := step_indentTo hdeferred hrest (by simp [hregion]) hblank
      simpa only [toLine, lineWidth, ← hregion] using h

/-- Every step of a scanner is one of those listed. -/
theorem step_next (s : Scanner) : Step s s.next.1 s.next.2 := by
  unfold next
  split
  · next l ls hdeferred => exact .deferred l ls hdeferred
  · next hdeferred hrest =>
    unfold finish Indentation.pop?
    split
    · next width indents hpop =>
      split at hpop
      · simp at hpop
      · next hopened =>
        obtain ⟨-, rfl⟩ := by simpa using hpop
        exact .close _ _ hdeferred hrest hopened
    · next hpop =>
      split at hpop
      · next hopened => exact .eos hdeferred hrest hopened
      · simp at hpop
  · next cs hdeferred hrest => exact step_breakLine hdeferred hrest
  · next cs hdeferred hnil hbreak =>
    obtain ⟨c, cs', hrest⟩ := List.exists_cons_of_ne_nil hnil
    have hc : c ≠ '\n' := fun hc => hbreak cs' (by rw [hrest, hc])
    split
    · next token rest hrest' hread =>
      exact .token c cs' token ⟨rest, hrest'⟩ hdeferred hrest hc hread
    · next hread => exact .unknown c cs' hdeferred hrest hc hread

theorem Step.of_next {s s' : Scanner} {r : Except ScanError Lexeme} (h : s.next = (r, s')) :
    Step s r s' := by
  have hstep := step_next s
  rwa [h] at hstep

end Scanner

end Offside
