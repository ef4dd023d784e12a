import Offside.Proofs.Line.Position
import Offside.Proofs.Line.Rule

/-!
# Verbatim regions

A line that opens a verbatim region holds a `Wrapper`: the name of a filter, a pipe, a hidden
comment, or hidden code that ends in a backslash. The deeper lines below it and the blank
ones between them are the rows of the region. Whatever the rows hold, each is scanned as an
indent, and those that are not blank also as a text (`emits_region`).

The levels are the same behind a region as in front of it, and the line that ends it is
compared with them as any other line (`Leaves`).
-/

set_option autoImplicit false

namespace Offside.Verbatim

open Offside.Character
open Scanner (Emits)
open Source (Row)

/-! ### Wrappers -/

/-- What opens a verbatim region, if nothing follows on its line. -/
inductive Wrapper where
  | filter (name : String)
  | pipe
  /-- A hidden comment. -/
  | comment (body : String)
  /-- Hidden code. -/
  | code (source : String)
deriving DecidableEq, Repr

namespace Wrapper

/-- The characters of a line, behind its spaces. -/
def chars : Wrapper → List Char
  | filter name => ':' :: name.toList
  | pipe => ['|']
  | comment body => '/' :: body.toList
  | code source => '-' :: source.toList

def token : Wrapper → Token
  | filter name => .filter name
  | pipe => .pipe
  | comment body => .comment body false
  | code source => .code source false

/-- A filter has a name, a comment is hidden, and code ends in a backslash. All of them stand
on one line. -/
def Valid : Wrapper → Prop
  | filter name => name ≠ "" ∧ ∀ c ∈ name.toList, isWord c = true
  | pipe => True
  | comment body => '\n' ∉ body.toList ∧ body.toList.head? ≠ some '!'
  | code source => '\n' ∉ source.toList ∧ source.toList.getLast? = some '\\'

instance : (w : Wrapper) → Decidable w.Valid
  | filter _ => inferInstanceAs (Decidable (_ ∧ _))
  | pipe => inferInstanceAs (Decidable True)
  | comment _ => inferInstanceAs (Decidable (_ ∧ _))
  | code _ => inferInstanceAs (Decidable (_ ∧ _))

theorem opensVerbatim_token (w : Wrapper) (hw : w.Valid) : w.token.opensVerbatim = true := by
  cases w with
  | filter name => rfl
  | pipe => rfl
  | comment body => rfl
  | code source => simp [token, Token.opensVerbatim, hw.2]

/-- A wrapper starts with its mark. -/
theorem exists_chars (w : Wrapper) : ∃ c cs, w.chars = c :: cs ∧ c ≠ ' ' ∧ c ≠ '\n' := by
  cases w <;> exact ⟨_, _, rfl, by decide, by decide⟩

end Wrapper

variable {c : Char} {cs : List Char} {w : Wrapper}

theorem read_filter {rest : List Char} (hc : isWord c = true)
    (hcs : ∀ d ∈ cs, isWord d = true) (hrest : Outline.EndsLine rest) :
    ∃ h, Token.read (':' :: c :: (cs ++ rest)) =
      some (.filter (String.ofList (c :: cs)), ⟨rest, h⟩) := by
  have hstop : ∀ c ∈ rest.head?, isWord c = false := by
    intro c hc
    rw [hrest c hc]
    rfl
  have hafter : (cs ++ rest).dropWhile isWord = rest :=
    dropWhile_append_of_stop hcs hstop
  have hlt : rest.length < (':' :: c :: (cs ++ rest)).length := by
    simp only [List.length_append, List.length_cons]
    omega
  have hfilter : Token.readFilter (':' :: c :: (cs ++ rest)) =
      some (.filter (String.ofList (c :: cs)), ⟨rest, hlt⟩) := by
    have hread : Token.readFilter (':' :: c :: (cs ++ rest)) = _ := if_pos hc
    rw [takeWhile_append_of_stop hcs hstop] at hread
    exact hread.trans (congrArg (fun r => some (_, r)) (Subtype.ext hafter))
  refine ⟨hlt, Outline.read_eq_of_readers
    [Token.readDoctype, Token.readTag, Token.readPipe, Token.readMarkup] rfl ?_ hfilter⟩
  simp [Token.readDoctype, after?, Token.readTag, isWord, Token.readPipe, Token.readMarkup]

theorem read_pipe (rest : List Char) : ∃ h, Token.read ('|' :: rest) = some (.pipe, ⟨rest, h⟩) := by
  refine ⟨_, Outline.read_eq_of_readers [Token.readDoctype, Token.readTag] rfl ?_ rfl⟩
  simp [Token.readDoctype, after?, Token.readTag, isWord]

theorem read_comment {body : String} {rest : List Char} (hbody : (Wrapper.comment body).Valid)
    (hrest : Outline.EndsLine rest) :
    ∃ h, Token.read ('/' :: body.toList ++ rest) = some (.comment body false, ⟨rest, h⟩) := by
  obtain ⟨hbreak, hhead⟩ := hbody
  -- Behind an empty comment the line ends.
  have hmark : (body.toList ++ rest).head? ≠ some '!' := by
    rw [List.head?_append]
    cases hfirst : body.toList.head? with
    | none =>
      intro hmark
      exact absurd (hrest '!' hmark) (by decide)
    | some c => rwa [hfirst] at hhead
  have hread := Outline.read_comment false hbreak hrest fun _ => hmark
  rwa [String.ofList_toList] at hread

theorem read_code {source : String} {rest : List Char} (hsource : (Wrapper.code source).Valid)
    (hrest : Outline.EndsLine rest) :
    ∃ h, Token.read ('-' :: source.toList ++ rest) = some (.code source false, ⟨rest, h⟩) := by
  obtain ⟨hbreak, hlast⟩ := hsource
  have hne : source.toList ≠ [] := by
    intro hnil
    simp [hnil] at hlast
  have hread := Outline.read_code false hne hbreak hrest
  rwa [String.ofList_toList] at hread

/-- A wrapper is read up to the end of its line. -/
theorem Wrapper.outcome_read {rest : List Char} (hw : w.Valid) (hrest : Outline.EndsLine rest) :
    Reader.outcome Token.read (w.chars ++ rest) = some (w.token, rest) := by
  have houtcome : ∀ {cs : List Char} {token : Token},
      (∃ h, Token.read cs = some (token, ⟨rest, h⟩)) →
        Reader.outcome Token.read cs = some (token, rest) := by
    rintro cs token ⟨h, hread⟩
    rw [Reader.outcome, hread]
    rfl
  cases w with
  | filter name =>
    obtain ⟨hne, hword⟩ := hw
    obtain ⟨c, cs, hcs⟩ : ∃ c cs, name.toList = c :: cs :=
      List.exists_cons_of_ne_nil (by simpa using hne)
    rw [hcs] at hword
    have hread := houtcome
      (read_filter (hword c (.head _)) (fun d hd => hword d (.tail _ hd)) hrest)
    rw [← hcs, String.ofList_toList] at hread
    rw [chars, hcs]
    exact hread
  | pipe => exact houtcome (read_pipe rest)
  | comment body => exact houtcome (read_comment hw hrest)
  | code source => exact houtcome (read_code hw hrest)

/-! ### Rows -/

/-- A line is deeper than the one that opened the region, if it is not blank. -/
def Deeper (base : Nat) : Row → Prop
  | .blank _ => True
  | .line width body =>
    base < width ∧ body ≠ "" ∧ body.toList.head? ≠ some ' ' ∧ '\n' ∉ body.toList

instance (base : Nat) : (row : Row) → Decidable (Deeper base row)
  | .blank _ => inferInstanceAs (Decidable True)
  | .line _ _ => inferInstanceAs (Decidable (_ ∧ _))

/-- A text without a pipe in front and one space behind the pipe. -/
def stripPipe : List Char → List Char
  | '|' :: ' ' :: cs => cs
  | '|' :: cs => cs
  | cs => cs

/-- The text of a line that is not blank. One step of indentation below the line that opened
the region is left out. -/
def text? (layout : Layout) (base : Nat) : Row → Option String
  | .blank _ => none
  | .line width body => some (String.ofList
      (List.replicate (width - base - layout.tabWidth) ' ' ++ stripPipe body.toList))

/-- The lexemes of a line. -/
def lexemesOf (layout : Layout) (base line : Nat) (row : Row) : List Lexeme :=
  ⟨.indent, line⟩ :: (text? layout base row).toList.map fun value => ⟨.text value, line⟩

/-- The lexemes of the lines behind a line. -/
def lexemes (layout : Layout) (base line : Nat) : List Row → List Lexeme
  | [] => []
  | row :: rows => lexemesOf layout base (line + 1) row ++ lexemes layout base (line + 1) rows

/-- The texts of some lines. -/
def texts (layout : Layout) (base : Nat) (rows : List Row) : List String :=
  rows.filterMap (text? layout base)

theorem text_eq (region : Region) (hopening : region.opening = false) (cs : List Char) :
    region.text cs = List.replicate region.padding ' ' ++ stripPipe cs := by
  unfold Region.text
  rw [hopening]
  congr 1
  fun_cases stripPipe cs with
  | case1 cs => rfl
  | case2 cs hspace => cases cs <;> simp_all [dropOne]
  | case3 cs hpipe => split <;> simp_all

/-! ### Scanning a region -/

/-- A scanner in the region that was opened at another one, behind a line. -/
structure Inside (s₀ s : Scanner) (line : Nat) (rest : List Char) : Prop where
  deferred : s.deferred = []
  layout : s.layout = s₀.layout
  indents : s.indents = s₀.indents
  region : ∃ region, s.region = some region ∧ region.base = s₀.indents.current
  line : s.line = line
  rest : s.rest = rest

variable {s₀ s : Scanner} {line : Nat} {rest : List Char}

/-- A wrapper opens a region. -/
theorem emits_wrapper (hw : w.Valid) (hdeferred : s.deferred = [])
    (hregion : s.region = none) (hrest : Outline.EndsLine rest) (hs : s.rest = w.chars ++ rest) :
    ∃ s', Emits s [⟨w.token, s.line⟩] s' ∧ Inside s s' s.line rest := by
  obtain ⟨c, cs, hcs, -, hbreak⟩ := w.exists_chars
  have hread : Reader.outcome s.readInline s.rest = some (w.token, rest) := by
    have hread := Wrapper.outcome_read hw hrest
    rw [← hs] at hread
    obtain ⟨⟨_, left⟩, hout, heq⟩ := Option.map_eq_some_iff.1 hread
    rw [Reader.outcome, Scanner.readInline, Scanner.readVerbatim, hregion, Option.none_or, hout]
    exact congrArg some heq
  have hnext := Scanner.next_of_inline hdeferred (hs.trans (by rw [hcs]; rfl)) hbreak
  rw [hread] at hnext
  refine ⟨_, .single hnext ?_, hdeferred, rfl, rfl, ⟨_, if_pos (w.opensVerbatim_token hw), rfl⟩,
    rfl, rfl⟩
  cases w <;> rintro ⟨⟩

/-- Behind the opening line, the rest of a line is text whatever it holds. -/
theorem next_text {region : Region} {body : List Char} (hdeferred : s.deferred = [])
    (hregion : s.region = some region) (hopening : region.opening = false) (hne : body ≠ [])
    (hbreak : '\n' ∉ body) (hrest : Outline.EndsLine rest) (hs : s.rest = body ++ rest) :
    s.next = (.ok ⟨.text (String.ofList
        (List.replicate region.padding ' ' ++ stripPipe body)), s.line⟩,
      { s with rest, last := some .text }) := by
  obtain ⟨c, cs, rfl⟩ := List.exists_cons_of_ne_nil hne
  obtain ⟨h, hline⟩ := Outline.readLine_append hne hbreak hrest
  have hread : s.readInline (c :: (cs ++ rest)) = some (.text (String.ofList
      (List.replicate region.padding ' ' ++ stripPipe (c :: cs))), ⟨rest, h⟩) := by
    have hline : Token.readLine (c :: (cs ++ rest)) = some (c :: cs, ⟨rest, h⟩) := hline
    rw [Scanner.readInline, Scanner.readVerbatim, hregion]
    simp [hopening, hline, text_eq region hopening]
  exact Outline.next_of_readInline hdeferred hs (fun heq => hbreak (heq ▸ .head _)) hread rfl

/-- A line of the region is scanned as its lexemes, and the region goes on behind it. -/
theorem emits_row {row : Row} (hrow : Deeper s₀.indents.current row)
    (hrest : Outline.EndsLine rest) (htidy : Scanner.Tidy ('\n' :: (row.chars ++ rest)))
    (hs : Inside s₀ s line ('\n' :: (row.chars ++ rest))) :
    ∃ s', Emits s (lexemesOf s₀.layout s₀.indents.current (line + 1) row) s' ∧
      Inside s₀ s' (line + 1) rest := by
  obtain ⟨region, hregion, hbase⟩ := hs.region
  cases row with
  | blank width =>
    -- A template does not end with a blank line.
    have hne : rest ≠ [] := by
      rintro rfl
      exact htidy.dropWhile_ne_nil (Scanner.dropWhile_spaces (by simp))
    obtain ⟨c, cs, rfl⟩ := List.exists_cons_of_ne_nil hne
    obtain rfl := hrest c rfl
    have hnext := Scanner.next_verbatimBlank hs.deferred hregion hs.rest
    rw [hs.line] at hnext
    exact ⟨_, .single hnext (by rintro ⟨⟩),
      ⟨hs.deferred, hs.layout, hs.indents, ⟨region, hregion, hbase⟩, rfl, rfl⟩⟩
  | line width body =>
    obtain ⟨hwidth, hne, hspace, hbreak⟩ := hrow
    have hne : body.toList ≠ [] := by simpa using hne
    obtain ⟨c, cs, hcs⟩ := List.exists_cons_of_ne_nil hne
    have hc : c ≠ ' ' := fun heq => hspace (by rw [hcs, heq]; rfl)
    have hc' : c ≠ '\n' := fun heq => hbreak (by rw [hcs, heq]; exact .head _)
    have hsrest : s.rest = '\n' :: (List.replicate width ' ' ++ c :: (cs ++ rest)) := by
      rw [hs.rest, Row.chars, hcs, List.append_assoc, List.cons_append]
    let s₁ : Scanner :=
      { s with
        rest := c :: (cs ++ rest)
        line := s.line + 1
        region := some { region with
          padding := width - (region.base + s.layout.tabWidth), opening := false }
        last := some .indent }
    have hindent : s.next = (.ok ⟨.indent, s.line + 1⟩, s₁) :=
      Scanner.next_verbatimLine hs.deferred hsrest hc hc' hregion (by rwa [hbase])
    have htext : s₁.next = _ :=
      next_text hs.deferred rfl rfl hne hbreak hrest (by rw [hcs]; rfl)
    rw [lexemesOf, text?, Nat.sub_sub, ← hs.layout, ← hbase, ← hs.line]
    exact ⟨_, .step hindent (by rintro ⟨⟩) (.single htext (by rintro ⟨⟩)),
      ⟨hs.deferred, hs.layout, hs.indents, ⟨_, rfl, hbase⟩, rfl, rfl⟩⟩

/-- The lines of a region are scanned one after the other. -/
theorem emits_rows {rows : List Row} (hrows : ∀ row ∈ rows, Deeper s₀.indents.current row)
    (hrest : Outline.EndsLine rest)
    (htidy : Scanner.Tidy (Source.below (rows.map Row.chars) ++ rest))
    (hs : Inside s₀ s line (Source.below (rows.map Row.chars) ++ rest)) :
    ∃ s', Emits s (lexemes s₀.layout s₀.indents.current line rows) s' ∧
      Inside s₀ s' (line + rows.length) rest := by
  induction rows generalizing s line with
  | nil => exact ⟨s, .refl s, hs⟩
  | cons row rows ih =>
    have hbelow : Source.below ((row :: rows).map Row.chars) ++ rest =
        '\n' :: (row.chars ++ (Source.below (rows.map Row.chars) ++ rest)) := by
      rw [List.map_cons, Source.below_cons, List.cons_append, List.append_assoc]
    rw [hbelow] at htidy hs
    have hends := Source.endsLine_below_append (rows.map Row.chars) hrest
    obtain ⟨s₁, hrow, hs₁⟩ := emits_row (hrows row (.head _)) hends htidy hs
    have htidy₁ := htidy.of_suffix (.trans (List.suffix_append _ _) (List.suffix_cons _ _))
    obtain ⟨s', hemits, hs'⟩ := ih (fun r hr => hrows r (.tail _ hr)) htidy₁ hs₁
    refine ⟨s', hrow.trans hemits, ?_⟩
    rw [List.length_cons, Nat.add_comm rows.length, ← Nat.add_assoc]
    exact hs'

/-! ### Behind a region -/

/-- A region ends with the template, or in front of a line that is not deeper than the one
that opened the region. -/
def Ends (base : Nat) (rest : List Char) : Prop :=
  rest = [] ∨ ∃ width c cs, rest = '\n' :: (List.replicate width ' ' ++ c :: cs) ∧
    width ≤ base ∧ c ≠ ' ' ∧ c ≠ '\n'

/-- A scanner goes on to a line of some width that ends a region. It closes the levels that
are wider, or it finds a newline if there are none. If the width is not open, the line
offends. -/
def Leaves (s : Scanner) (width : Nat) (rest : List Char) : Prop :=
  if width ∈ s.indents.path then
    ∃ s', Emits s
        (if width = s.indents.current then [⟨.newline, s.line + 1⟩]
          else List.replicate (Rule.closed s.indents.path width) ⟨.outdent, s.line + 1⟩) s' ∧
      Rule.Stands s' (s.indents.path.dropWhile (width < ·)) (s.line + 1) rest
  else s.next.1 = .error (.malformedIndentation (s.line + 1))

variable {width : Nat}

/-- The line that ends a region is not deeper than the one that opened it. -/
theorem Ends.width_le {base : Nat}
    (h : Ends base ('\n' :: (List.replicate width ' ' ++ c :: cs))) (hspace : c ≠ ' ') :
    width ≤ base := by
  rcases h with hnil | ⟨width', c', cs', heq, hwidth, hspace', -⟩
  · cases hnil
  · have htake := congrArg (·.takeWhile isSpace) (List.cons.inj heq).2
    rw [Scanner.takeWhile_spaces (by simpa using hspace),
      Scanner.takeWhile_spaces (by simpa using hspace')] at htake
    have hlength := congrArg List.length htake
    rw [List.length_replicate, List.length_replicate] at hlength
    rwa [hlength]

theorem Ends.endsLine {base : Nat} (h : Ends base rest) : Outline.EndsLine rest := by
  rcases h with rfl | ⟨width, c, cs, rfl, -⟩
  · simp [Outline.EndsLine]
  · simp [Outline.EndsLine]

theorem Inside.leaves (hs₀ : s₀.Sound)
    (hwidth : width ≤ s₀.indents.current) (hspace : c ≠ ' ') (hbreak : c ≠ '\n')
    (hs : Inside s₀ s line ('\n' :: (List.replicate width ' ' ++ c :: cs))) :
    Leaves s width (c :: cs) := by
  obtain ⟨region, hregion, hbase⟩ := hs.region
  have hclosed : ∀ region ∈ s.region, width ≤ region.base := by
    intro region' hregion'
    obtain rfl := Option.some.inj (hregion.symm.trans hregion')
    rwa [hbase]
  have hascending : s.indents.Ascending := by
    rw [hs.indents]
    exact hs₀.ascending
  rw [← hs.indents] at hwidth
  have htop : ¬Rule.top s.indents.path < width := by
    rw [Rule.top, Indentation.headD_path]
    exact Nat.not_lt.2 hwidth
  unfold Leaves
  split
  · next hmem =>
    obtain ⟨s', hemits, hs'⟩ := Rule.emits_between hs.deferred hs.rest hspace hbreak hclosed
      hascending fun _ => hmem
    rw [Rule.turn, if_neg htop] at hs'
    rw [Rule.between, if_neg htop, Rule.top, Indentation.headD_path] at hemits
    exact ⟨s', hemits, hs'⟩
  · next hmem =>
    -- The innermost level is open, so the line is shallower.
    have hne : width ≠ s.indents.current := by
      rintro rfl
      rw [s.indents.path_eq_cons] at hmem
      exact hmem List.mem_cons_self
    exact Rule.next_of_not_mem hs.deferred hs.rest hspace hbreak hclosed
      (Nat.lt_of_le_of_ne hwidth hne) hmem

/-- Behind a region comes neither an indent nor a text. -/
theorem Inside.head_lexemes {l : Lexeme} {ls : List Lexeme} (hs₀ : s₀.Sound)
    (hends : Ends s₀.indents.current rest) (hs : Inside s₀ s line rest)
    (hfailure : s.tape.failure = none) (hls : s.tape.lexemes = l :: ls) :
    l.token = .newline ∨ l.token = .outdent ∨ l.token = .eos := by
  rcases hends with rfl | ⟨width, c, cs, rfl, hwidth, hspace, hbreak⟩
  · rw [(Scanner.tape_of_end hs.deferred hs.rest).1] at hls
    have hmem : l ∈ List.replicate s.indents.depth (Lexeme.mk .outdent s.line) ++
        [⟨.eos, s.line⟩] := by
      rw [hls]
      exact .head _
    rcases List.mem_append.1 hmem with hl | hl
    · rw [List.eq_of_mem_replicate hl]
      exact .inr (.inl rfl)
    · rw [List.mem_singleton.1 hl]
      exact .inr (.inr rfl)
  · have hleaves := hs.leaves hs₀ hwidth hspace hbreak
    unfold Leaves at hleaves
    split at hleaves
    · obtain ⟨s', hemits, hs'⟩ := hleaves
      have htape := hemits.tape.1
      rw [hls] at htape
      cases hemits' : (if width = s.indents.current then [⟨.newline, s.line + 1⟩]
          else List.replicate (Rule.closed s.indents.path width) ⟨.outdent, s.line + 1⟩ :
            List Lexeme) with
      | nil =>
        -- Without a lexeme the scanner would still be in front of the line.
        rw [hemits'] at hemits
        cases hemits
        have heq := hs.rest.symm.trans hs'.rest
        exact absurd (List.cons.inj heq).1.symm hbreak
      | cons l' ls' =>
        rw [hemits', List.cons_append] at htape
        obtain rfl := (List.cons.inj htape).1
        have hmem : l ∈ l :: ls' := .head _
        rw [← hemits'] at hmem
        split at hmem
        · rw [List.mem_singleton.1 hmem]
          exact .inl rfl
        · rw [List.eq_of_mem_replicate hmem]
          exact .inr (.inl rfl)
    · rw [Scanner.tape_of_error (Prod.ext hleaves rfl)] at hfailure
      cases hfailure

/-- The lines of a region below its wrapper are scanned as lexemes of their own, whatever
they hold. -/
theorem emits_region {rows : List Row} (hw : w.Valid)
    (hrows : ∀ row ∈ rows, Deeper s.indents.current row) (hends : Outline.EndsLine rest)
    (hdeferred : s.deferred = []) (hregion : s.region = none) (htidy : Scanner.Tidy s.rest)
    (hrest : s.rest = w.chars ++ (Source.below (rows.map Row.chars) ++ rest)) :
    ∃ s', Emits s (⟨w.token, s.line⟩ :: lexemes s.layout s.indents.current s.line rows) s' ∧
      Inside s s' (s.line + rows.length) rest := by
  have hbelow := Source.endsLine_below_append (rows.map Row.chars) hends
  obtain ⟨s₁, hwrapper, hs₁⟩ := emits_wrapper hw hdeferred hregion hbelow hrest
  have htidy₁ : Scanner.Tidy (Source.below (rows.map Row.chars) ++ rest) := by
    rw [hrest] at htidy
    exact htidy.of_suffix (List.suffix_append _ _)
  obtain ⟨s', hemits, hs'⟩ := emits_rows hrows hends htidy₁ hs₁
  exact ⟨s', hwrapper.trans hemits, hs'⟩

/-- Where a line of a source starts, its number and its width are known. -/
theorem place_of_emits {layout : Layout} {source : String} {ls : List Lexeme}
    {above : List Char} (hemits : Emits (.ofSource layout source) ls s)
    (hregion : s.region = none) (hrest : s.rest = w.chars ++ cs)
    (hsource : Source.normalize layout source = above ++ (List.replicate width ' ' ++ s.rest))
    (habove : ∀ c ∈ above.getLast?, c = '\n') :
    s.indents.current = width ∧ s.line = above.count '\n' + 1 := by
  obtain ⟨above', front, hplaced⟩ := hemits.placed (Scanner.sound_ofSource layout source)
    (Scanner.placed_ofSource layout source)
  have hcut : above' ++ front = above ++ List.replicate width ' ' := by
    have heq := hplaced.eq.symm.trans hsource
    rw [← List.append_assoc, ← List.append_assoc] at heq
    exact List.append_cancel_right heq
  obtain ⟨rfl, rfl⟩ := Source.append_inj_of_break hcut hplaced.inline (by simp) hplaced.last habove
  obtain ⟨c, cs', hcs, hspace, hbreak⟩ := w.exists_chars
  have hhead : s.rest = c :: (cs' ++ cs) := by rw [hrest, hcs, List.cons_append]
  have hdrop : (List.replicate width ' ' ++ s.rest).dropWhile isSpace = s.rest :=
    Scanner.dropWhile_spaces (by simpa [hhead] using hspace)
  have htake : (List.replicate width ' ' ++ s.rest).takeWhile isSpace = List.replicate width ' ' :=
    Scanner.takeWhile_spaces (by simpa [hhead] using hspace)
  have hblank : Scanner.isBlankLine (List.replicate width ' ' ++ s.rest) = false := by
    rw [Scanner.isBlankLine, hdrop, hhead]
    simpa using hbreak
  refine ⟨?_, hplaced.number⟩
  rw [hplaced.current hregion (by simp [hhead]) hblank, Scanner.lineWidth, htake,
    List.length_replicate]

end Offside.Verbatim
