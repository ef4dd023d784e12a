import Offside.Proofs.Outline.Basic
import Offside.Proofs.Token.Scan

/-!
# Scanning an outline

The lexemes of a printed outline, rung by rung (`after`): behind a rung comes a newline if
the next rung has the same depth, an indent if it is deeper, and one outdent for each
level it closes; behind the last rung all levels are closed.

`At` describes the scanners that scanning an outline comes by. The three lemmas for a
rung (`emits_item`), for what is between two rungs (`emits_break`) and for the end
(`tape_end`) make up `tape_rungs`.
-/

set_option autoImplicit false

namespace Offside

namespace Outline

open Offside.Character
open Scanner (Emits)

/-! ### The lexemes of an outline -/

/-- The lexemes of an item on a line. -/
def Item.lexemes (line : Nat) : Item → List Lexeme
  | tag name text => ⟨.tag name, line⟩ :: text.toList.map fun t => ⟨.text (" " ++ t), line⟩
  | code expression buffered => [⟨.code (" " ++ expression) buffered, line⟩]
  | comment body => [⟨.comment (" " ++ body) true, line⟩]

/-- What opens a level between two rungs, or goes on in one. -/
def glue (depth depth' line : Nat) : List Lexeme :=
  if depth' = depth then [⟨.newline, line⟩]
  else if depth < depth' then [⟨.indent, line⟩] else []

/-- The lexemes behind a rung of the given depth on the given line. -/
def after (depth line : Nat) : List Rung → List Lexeme
  | [] => List.replicate depth ⟨.outdent, line⟩ ++ [⟨.eos, line⟩]
  | r :: rungs =>
    glue depth r.depth (line + 1) ++ List.replicate (depth - r.depth) ⟨.outdent, line + 1⟩ ++
      (r.item.lexemes (line + 1) ++ after r.depth (line + 1) rungs)

/-- The lines that follow a rung. -/
def tail (k : Nat) (rungs : List Rung) : List Char :=
  rungs.flatMap fun r => '\n' :: (r.print k).toList

/-- Rungs that are at most one level deeper than the ones in front of them. -/
def Nested : Nat → List Rung → Prop
  | _, [] => True
  | depth, r :: rungs => r.depth ≤ depth + 1 ∧ Nested r.depth rungs

variable {depth' : Nat}

/-- An outline goes down one level at a time. -/
theorem nested_rungs {o : Outline} {depth : Nat} {rungs : List Rung} (h : depth' ≤ depth + 1)
    (hrungs : ∀ {depth}, depth' ≤ depth + 1 → Nested depth rungs) :
    Nested depth (o.rungs depth' ++ rungs) := by
  induction o generalizing depth depth' rungs with
  | nil => exact hrungs h
  | cons item below next ihbelow ihnext =>
    rw [Outline.rungs, List.cons_append, List.append_assoc]
    -- Whatever depth the rungs below end at, the next item is no deeper than its sibling.
    refine ⟨h, ihbelow (Nat.le_refl _) fun hbelow => ihnext ?_ hrungs⟩
    omega

/-- The items whose lines are scanned as their lexemes. -/
def Item.Readable : Item → Prop
  | tag name text => IsName name ∧ ∀ t ∈ text, IsInlineText t
  | code expression buffered => expression ≠ "" ∧ '\n' ∉ expression.toList ∧
      (buffered = false → expression.toList.getLast? ≠ some '\\')
  | comment body => '\n' ∉ body.toList

/-- An outline all of whose lines are scanned as their lexemes. -/
def Readable : Outline → Prop
  | nil => True
  | cons item below next => item.Readable ∧ below.Readable ∧ next.Readable

/-! ### Open levels -/

/-- The widths of the levels that are open at a depth, innermost first. -/
def levels (k : Nat) : Nat → List Nat
  | 0 => []
  | depth + 1 => (depth + 1) * k :: levels k depth

theorem length_levels (k depth : Nat) : (levels k depth).length = depth := by
  induction depth with
  | zero => rfl
  | succ depth ih => rw [levels, List.length_cons, ih]

theorem current_levels (k depth : Nat) : Indentation.current ⟨levels k depth⟩ = depth * k := by
  cases depth with
  | zero => exact (Nat.zero_mul k).symm
  | succ depth => rfl

/-- The levels above an outer depth are the ones that are not as wide. -/
theorem dropWhile_levels {k depth : Nat} (hk : 1 ≤ k) (h : depth' ≤ depth) :
    (levels k depth).dropWhile (· ≠ depth' * k) = levels k depth' := by
  induction depth with
  | zero =>
    obtain rfl := Nat.le_zero.1 h
    rfl
  | succ depth ih =>
    rw [levels]
    by_cases heq : depth' = depth + 1
    · subst heq
      rw [List.dropWhile_cons_of_neg (by simp)]
      rfl
    · have hne : (depth + 1) * k ≠ depth' * k := by
        intro hmul
        exact heq (Nat.eq_of_mul_eq_mul_right hk hmul).symm
      rw [List.dropWhile_cons_of_pos (by simpa using hne)]
      exact ih (by omega)

theorem closeTo?_levels {k depth : Nat} (hk : 1 ≤ k) (h : depth' ≤ depth) :
    Indentation.closeTo? ⟨levels k depth⟩ (depth' * k) =
      some (depth - depth', ⟨levels k depth'⟩) := by
  have hopen : depth' * k = 0 ∨ levels k depth' ≠ [] := by
    cases depth' with
    | zero => exact .inl (Nat.zero_mul k)
    | succ depth' => exact .inr (List.cons_ne_nil _ _)
  unfold Indentation.closeTo?
  simp only [dropWhile_levels hk h, length_levels]
  rw [if_pos hopen]

/-! ### Reading the parts of a line -/

/-- The rest of a source behind a line. -/
def EndsLine (rest : List Char) : Prop :=
  ∀ c ∈ rest.head?, c = '\n'

variable {rest cs : List Char} {name : String} {c : Char}

theorem EndsLine.isInline (h : EndsLine rest) : ∀ c ∈ rest.head?, Token.isInline c = false := by
  intro c hc
  rw [h c hc]
  rfl

theorem readLine_append (hne : cs ≠ []) (hcs : '\n' ∉ cs) (hrest : EndsLine rest) :
    ∃ h, Token.readLine (cs ++ rest) = some (cs, ⟨rest, h⟩) := by
  have hinline : ∀ c ∈ cs, Token.isInline c = true := by
    intro c hc
    have : c ≠ '\n' := fun h => hcs (h ▸ hc)
    simpa [Token.isInline] using this
  cases cs with
  | nil => exact absurd rfl hne
  | cons c cs =>
    have htail : ∀ c ∈ cs, Token.isInline c = true := fun c hc => hinline c (.tail _ hc)
    have hafter : (Rest.afterRun Token.isInline c (cs ++ rest)).1 = rest :=
      dropWhile_append_of_stop htail hrest.isInline
    have hread : Token.readLine (c :: (cs ++ rest)) = _ := if_pos (hinline c (.head _))
    rw [takeWhile_append_of_stop htail hrest.isInline] at hread
    have hlt : rest.length < (c :: cs ++ rest).length := by
      simp only [List.length_append, List.length_cons]
      omega
    exact ⟨hlt, hread.trans (congrArg (fun r => some (c :: cs, r)) (Subtype.ext hafter))⟩

theorem IsName.toList_eq (h : IsName name) :
    ∃ c cs, name.toList = c :: cs ∧ isWord c = true ∧ ∀ c ∈ cs, isTagName c = true := by
  obtain ⟨hhead, htail, -⟩ := h
  cases hcs : name.toList with
  | nil =>
    rw [hcs] at hhead
    exact absurd hhead (by decide)
  | cons c cs =>
    rw [hcs] at hhead htail
    exact ⟨c, cs, rfl, hhead, by simpa using htail⟩

/-- A name is not the start of a document type, whatever follows behind the character that
ends it. -/
theorem not_prefix_doctype (hname : ¬"doctype".toList <+: name.toList)
    (hrest : ∀ c ∈ rest.head?, isTagName c = false) :
    ¬"doctype".toList <+: name.toList ++ rest := by
  rintro ⟨u, hu⟩
  -- The word ends inside the name, or it reaches the character behind it.
  rcases List.append_eq_append_iff.1 hu with ⟨v, hv, -⟩ | ⟨v, hv, hrest'⟩
  · exact hname ⟨v, hv.symm⟩
  · cases v with
    | nil => exact hname ⟨[], by simpa using hv⟩
    | cons c v =>
      have hmem : c ∈ "doctype".toList := by rw [hv]; simp
      have hc := hrest c (by rw [hrest']; rfl)
      have hletters : ∀ c ∈ "doctype".toList, isTagName c = true := by decide
      rw [hletters c hmem] at hc
      cases hc

theorem readDoctype_eq_none (hdoctype : ¬"doctype".toList <+: cs)
    (hmarks : ¬"!!!".toList <+: cs) : Token.readDoctype cs = none := by
  unfold Token.readDoctype
  split
  · rfl
  · next inner h =>
    rcases Option.or_eq_some_iff.1 h with h | ⟨-, h⟩
    · exact absurd ⟨inner, (after?_eq_some_iff.1 h).symm⟩ hdoctype
    · exact absurd ⟨inner, (after?_eq_some_iff.1 h).symm⟩ hmarks

/-- The first reader that does not decline decides. -/
theorem read_eq_of_readers (before : List (Reader Token))
    {behind : List (Reader Token)} {reader : Reader Token} {out : Token × Rest cs}
    (hreaders : Token.readers = before ++ reader :: behind)
    (hbefore : ∀ reader ∈ before, reader cs = none) (h : reader cs = some out) :
    Token.read cs = some out := by
  unfold Token.read
  rw [hreaders, List.findSome?_append, List.findSome?_eq_none_iff.2 hbefore, Option.none_or,
    List.findSome?_cons, h]

theorem read_name (hname : IsName name) (hrest : ∀ c ∈ rest.head?, isTagName c = false) :
    ∃ h, Token.read (name.toList ++ rest) = some (.tag name, ⟨rest, h⟩) := by
  -- Document types are tried before tags, so they have to be ruled out.
  have hnot := not_prefix_doctype hname.2.2 hrest
  obtain ⟨c, cs, hcs, hc, hcs'⟩ := hname.toList_eq
  rw [hcs] at hnot ⊢
  have hmarks : ¬"!!!".toList <+: c :: (cs ++ rest) := by
    rintro ⟨u, hu⟩
    rw [← (List.cons.inj hu).1] at hc
    exact absurd hc (by decide)
  have hafter : (Rest.afterRun isTagName c (cs ++ rest)).1 = rest :=
    dropWhile_append_of_stop hcs' hrest
  have hlt : rest.length < (c :: cs ++ rest).length := by
    simp only [List.length_append, List.length_cons]
    omega
  have htag : Token.readTag (c :: (cs ++ rest)) = _ := if_pos hc
  rw [takeWhile_append_of_stop hcs' hrest, ← hcs, String.ofList_toList] at htag
  have htag' : Token.readTag (c :: cs ++ rest) = some (.tag name, ⟨rest, hlt⟩) :=
    htag.trans (congrArg (fun r => some (Token.tag name, r)) (Subtype.ext hafter))
  refine ⟨hlt, read_eq_of_readers [Token.readDoctype] rfl ?_ htag'⟩
  intro reader hreader
  rw [List.mem_singleton.1 hreader]
  exact readDoctype_eq_none hnot hmarks

theorem read_code (buffered : Bool) (hne : cs ≠ []) (hcs : '\n' ∉ cs) (hrest : EndsLine rest) :
    ∃ h, Token.read ((if buffered then '=' else '-') :: (cs ++ rest)) =
      some (.code (String.ofList cs) buffered, ⟨rest, h⟩) := by
  obtain ⟨hlt, hline⟩ := readLine_append hne hcs hrest
  have hcode : Token.readCode ((if buffered then '=' else '-') :: (cs ++ rest)) =
      some (.code (String.ofList cs) buffered, ⟨rest, Nat.lt_succ_of_lt hlt⟩) := by
    cases buffered <;> simp [Token.readCode, hline]
  refine ⟨_, read_eq_of_readers [Token.readDoctype, Token.readTag, Token.readPipe,
    Token.readMarkup, Token.readFilter] rfl ?_ hcode⟩
  cases buffered <;>
    simp [Token.readDoctype, after?, Token.readTag, isWord, Token.readPipe, Token.readMarkup,
      Token.readFilter]

/-- An exclamation mark shows a comment, so a hidden one does not start with it. -/
theorem read_comment (buffered : Bool) (hcs : '\n' ∉ cs)
    (hrest : EndsLine rest) (hmark : buffered = false → (cs ++ rest).head? ≠ some '!') :
    ∃ h, Token.read ('/' :: ((if buffered then ['!'] else []) ++ (cs ++ rest))) =
      some (.comment (String.ofList cs) buffered, ⟨rest, h⟩) := by
  have hinline : ∀ c ∈ cs, decide (c ≠ '\n') = true := by
    intro c hc
    exact decide_eq_true fun heq => hcs (heq ▸ hc)
  have hstop : ∀ c ∈ rest.head?, decide (c ≠ '\n') = false := by
    intro c hc
    rw [hrest c hc]
    rfl
  have hline : line (cs ++ rest) = cs := takeWhile_append_of_stop hinline hstop
  have hafter : afterLine (cs ++ rest) = rest := dropWhile_append_of_stop hinline hstop
  generalize hinner : (if buffered then ['!'] else []) ++ (cs ++ rest) = inner
  have hlt : rest.length < ('/' :: inner).length := by
    simp only [← hinner, List.length_cons, List.length_append]
    omega
  have hbuffered : (inner.head? == some '!') = buffered := by
    cases buffered with
    | true => rw [← hinner]; rfl
    | false => rw [← hinner]; exact beq_eq_false_iff_ne.2 (hmark rfl)
  have hbody : (if buffered then inner.tail else inner) = cs ++ rest := by
    cases buffered <;> rw [← hinner] <;> rfl
  have hcomment : Token.readComment ('/' :: inner) =
      some (.comment (String.ofList cs) buffered, ⟨rest, hlt⟩) := by
    -- Spaces in front of a comment are dropped, but here are none.
    have hdrop : ('/' :: inner).dropWhile isSpace = '/' :: inner := rfl
    unfold Token.readComment
    split
    · next inner' h =>
      obtain rfl := (List.cons.inj (hdrop.symm.trans h)).2
      simp only [hbuffered, hbody, hline, hafter]
    · next hnot => exact absurd hdrop (hnot _)
  refine ⟨hlt, read_eq_of_readers [Token.readDoctype, Token.readTag, Token.readPipe,
    Token.readMarkup, Token.readFilter, Token.readCode] rfl ?_ hcomment⟩
  simp [Token.readDoctype, after?, Token.readTag, isWord, Token.readPipe, Token.readMarkup,
    Token.readFilter, Token.readCode]

theorem readComment_eq_none (h : (cs.dropWhile isSpace).head? ≠ some '/') :
    Token.readComment cs = none := by
  unfold Token.readComment
  split
  · next inner hinner =>
    rw [hinner] at h
    exact absurd rfl h
  · rfl

/-- Behind a tag and a space, no token starts where a text does. -/
theorem read_text (hc : c ≠ ' ' ∧ c ≠ '/' ∧ c ≠ '(') : Token.read (' ' :: c :: cs) = none := by
  -- Comments and attribute lists may start behind spaces, all other tokens may not.
  have hdrop : (' ' :: c :: cs).dropWhile isSpace = c :: cs := by
    simp [isSpace, hc.1]
  have hcomment : Token.readComment (' ' :: c :: cs) = none := by
    refine readComment_eq_none ?_
    rw [hdrop]
    exact fun h => hc.2.1 (Option.some.inj h)
  have hattributes : Token.readAttributes (' ' :: c :: cs) = none := by
    unfold Token.readAttributes
    split
    · next inner h => exact absurd (List.cons.inj (hdrop.symm.trans h)).1 hc.2.2
    · rfl
  unfold Token.read
  rw [List.findSome?_eq_none_iff]
  simp [Token.readers, Token.readDoctype, after?, Token.readTag, isWord, Token.readPipe,
    Token.readMarkup, Token.readFilter, Token.readCode, Token.readMarked, hcomment, hattributes]

/-- Without an escaped parenthesis there is nothing to unescape. -/
theorem unescapeParens_of_unescaped (h : ¬"\\(".toList <:+: cs) : Token.unescapeParens cs = cs := by
  fun_induction Token.unescapeParens cs with
  | case1 => rfl
  | case2 cs ih => exact absurd ⟨[], cs, rfl⟩ h
  | case3 c cs _ hspace ih =>
    -- An escape behind spaces would be one inside the text as well.
    rw [Bool.and_eq_true, List.isPrefixOf_iff_prefix] at hspace
    have hsuffix : cs.dropWhile isSpace <:+ c :: cs :=
      (List.dropWhile_suffix _).trans (List.suffix_cons c cs)
    exact absurd (hspace.2.isInfix.trans hsuffix.isInfix) h
  | case4 c cs _ hspace ih =>
    rw [ih fun hcs => h (hcs.trans (List.suffix_cons c cs).isInfix)]

/-! ### Scanning a rung -/

/-- A scanner at a point of an outline: behind or inside a rung of the given depth and
line. -/
structure At (k : Nat) (s : Scanner) (depth line : Nat) (rest : List Char) : Prop where
  deferred : s.deferred = []
  region : s.region = none
  indents : s.indents = ⟨levels k depth⟩
  line : s.line = line
  rest : s.rest = rest

/-- The scanner of a source is at the start of its first rung. -/
theorem at_ofSource {layout : Layout} {source : String} (k : Nat)
    (h : Source.normalize layout source = rest) : At k (Scanner.ofSource layout source) 0 1 rest :=
  ⟨rfl, rfl, rfl, rfl, h⟩

variable {token : Token}

theorem next_of_readInline {s : Scanner}
    (hdeferred : s.deferred = []) (hrest : s.rest = c :: cs) (hc : c ≠ '\n')
    {h : rest.length < (c :: cs).length} (hread : s.readInline (c :: cs) = some (token, ⟨rest, h⟩))
    (hopens : token.opensVerbatim = false) :
    s.next = (.ok ⟨token, s.line⟩, { s with rest, last := some token.kind }) := by
  have hnext : s.next = { s with rest }.yield token := by
    unfold Scanner.next
    split
    · next hdeferred' => simp [hdeferred] at hdeferred'
    · next hnil => simp [hrest] at hnil
    · next hbreak => simp [hrest, hc] at hbreak
    · rw [hrest, hread]
  rw [hnext, Scanner.yield, Scanner.emit, if_neg (by simp [hopens])]
  rfl

/-- Outside of verbatim regions the readers of tokens are tried first. -/
theorem next_of_read {s : Scanner}
    (hdeferred : s.deferred = []) (hregion : s.region = none) (hrest : s.rest = c :: cs)
    (hc : c ≠ '\n') {h : rest.length < (c :: cs).length}
    (hread : Token.read (c :: cs) = some (token, ⟨rest, h⟩))
    (hopens : token.opensVerbatim = false) :
    s.next = (.ok ⟨token, s.line⟩, { s with rest, last := some token.kind }) := by
  refine next_of_readInline hdeferred hrest hc (h := h) ?_ hopens
  rw [Scanner.readInline, Scanner.readVerbatim, hregion, Option.none_or, hread, Option.some_or]

variable {k depth line : Nat} {s : Scanner}

theorem At.next_token
    {h : rest.length < (c :: cs).length} (hs : At k s depth line (c :: cs)) (hc : c ≠ '\n')
    (hread : Token.read (c :: cs) = some (token, ⟨rest, h⟩))
    (hopens : token.opensVerbatim = false) :
    ∃ s', s.next = (.ok ⟨token, line⟩, s') ∧ At k s' depth line rest ∧
      s'.last = some token.kind := by
  have hnext := next_of_read hs.deferred hs.region hs.rest hc hread hopens
  rw [hs.line] at hnext
  exact ⟨_, hnext, ⟨hs.deferred, hs.region, hs.indents, rfl, rfl⟩, rfl⟩

/-- Behind the name of a tag, what is no token is text. -/
theorem At.next_text {body : List Char} {h : rest.length < (c :: cs).length}
    (hs : At k s depth line (c :: cs)) (hc : c ≠ '\n') (hlast : s.last = some .tag)
    (hread : Token.read (c :: cs) = none)
    (hline : Token.readLine (c :: cs) = some (body, ⟨rest, h⟩)) :
    ∃ s', s.next = (.ok ⟨.text (String.ofList (Token.unescapeParens body)), line⟩, s') ∧
      At k s' depth line rest := by
  have hinline : s.readInline (c :: cs) =
      some (.text (String.ofList (Token.unescapeParens body)), ⟨rest, h⟩) := by
    simp [Scanner.readInline, Scanner.readVerbatim, hs.region, hread, Token.readInlineText, hlast,
      Token.Kind.hostsText, hline]
  have hnext := next_of_readInline hs.deferred hs.rest hc hinline rfl
  rw [hs.line] at hnext
  exact ⟨_, hnext, ⟨hs.deferred, hs.region, hs.indents, rfl, rfl⟩⟩

theorem At.next_name (hname : IsName name) (hrest : ∀ c ∈ rest.head?, isTagName c = false)
    (hs : At k s depth line (name.toList ++ rest)) :
    ∃ s', s.next = (.ok ⟨.tag name, line⟩, s') ∧ At k s' depth line rest ∧
      s'.last = some .tag := by
  have hread := read_name hname hrest
  obtain ⟨c, cs, hcs, hc, -⟩ := hname.toList_eq
  rw [hcs] at hs hread
  obtain ⟨h, hread⟩ := hread
  refine hs.next_token ?_ hread rfl
  rintro rfl
  exact absurd hc (by decide)

theorem ofList_space (text : String) : String.ofList (' ' :: text.toList) = " " ++ text := by
  rw [← String.toList_inj, String.toList_ofList, String.toList_append]
  rfl

theorem emits_tag {text : Option String} (hname : IsName name)
    (htext : ∀ t ∈ text, IsInlineText t) (hrest : EndsLine rest)
    (hs : At k s depth line ((Item.tag name text).print.toList ++ rest)) :
    ∃ s', Emits s ((Item.tag name text).lexemes line) s' ∧ At k s' depth line rest := by
  cases text with
  | none =>
    have hstop : ∀ c ∈ rest.head?, isTagName c = false := by
      intro c hc
      rw [hrest c hc]
      rfl
    obtain ⟨s', hnext, hat, -⟩ := hs.next_name hname hstop
    exact ⟨s', .single hnext nofun, hat⟩
  | some t =>
    obtain ⟨hne, hhead, hbreak, hescape⟩ := htext t rfl
    have hchars : (Item.tag name (some t)).print.toList ++ rest =
        name.toList ++ (' ' :: t.toList ++ rest) := by
      simp [Item.print]
    rw [hchars] at hs
    have hspace : ∀ c ∈ (' ' :: t.toList ++ rest).head?, isTagName c = false := by
      rintro c ⟨⟩
      rfl
    obtain ⟨s₁, hnext, hat, hlast⟩ := hs.next_name hname hspace
    have hcs : '\n' ∉ ' ' :: t.toList := by
      rintro (_ | ⟨_, hmem⟩)
      exact (hbreak _ hmem).1 rfl
    obtain ⟨hlt, hline⟩ := readLine_append (List.cons_ne_nil ' ' t.toList) hcs hrest
    -- No token starts at the space, so the rest of the line is text.
    have hread : Token.read (' ' :: (t.toList ++ rest)) = none := by
      cases hcs : t.toList with
      | nil => exact absurd (String.toList_inj.1 hcs) hne
      | cons c cs => exact read_text (hhead c (by rw [hcs]; rfl))
    have hescape' : ¬"\\(".toList <:+: ' ' :: t.toList := by
      intro hinfix
      rcases List.infix_cons_iff.1 hinfix with ⟨u, hu⟩ | hinfix
      · exact absurd (List.cons.inj hu).1 (by decide)
      · exact hescape hinfix
    obtain ⟨s', hnext', hat'⟩ := hat.next_text (by decide) hlast hread hline
    rw [unescapeParens_of_unescaped hescape', ofList_space] at hnext'
    exact ⟨s', .step hnext nofun (.single hnext' nofun), hat'⟩

/-- The code of an outline opens no verbatim region. -/
theorem Item.Readable.opensVerbatim_code {expression : String} {buffered : Bool}
    (h : (Item.code expression buffered).Readable) :
    (Token.code (" " ++ expression) buffered).opensVerbatim = false := by
  obtain ⟨hne, -, hlast⟩ := h
  cases buffered with
  | true => rfl
  | false =>
    -- The space in front does not change how the expression ends.
    have hlast' : (' ' :: expression.toList).getLast? = expression.toList.getLast? := by
      cases hcs : expression.toList with
      | nil => exact absurd (String.toList_inj.1 hcs) hne
      | cons c cs => exact List.getLast?_cons_cons
    simpa [Token.opensVerbatim, hlast'] using hlast rfl

/-- A rung is scanned as the lexemes of its item. -/
theorem emits_item {i : Item} (hi : i.Readable) (hrest : EndsLine rest)
    (hs : At k s depth line (i.print.toList ++ rest)) :
    ∃ s', Emits s (i.lexemes line) s' ∧ At k s' depth line rest := by
  cases i with
  | tag name text => exact emits_tag hi.1 hi.2 hrest hs
  | code expression buffered =>
    have hopens := hi.opensVerbatim_code
    obtain ⟨hne, hbreak, hlast⟩ := hi
    have hchars : (Item.code expression buffered).print.toList ++ rest =
        (if buffered then '=' else '-') :: ' ' :: (expression.toList ++ rest) := by
      cases buffered <;> simp [Item.print]
    obtain ⟨h, hread⟩ := read_code buffered (List.cons_ne_nil ' ' expression.toList)
      (by simpa using hbreak) hrest
    rw [hchars] at hs
    rw [ofList_space] at hread
    obtain ⟨s', hnext, hat, -⟩ := hs.next_token (by cases buffered <;> decide) hread hopens
    exact ⟨s', .single hnext nofun, hat⟩
  | comment body =>
    have hchars : (Item.comment body).print.toList ++ rest =
        '/' :: '!' :: ' ' :: (body.toList ++ rest) := by
      simp [Item.print]
    have hbreak : '\n' ∉ ' ' :: body.toList := by
      simpa using show '\n' ∉ body.toList from hi
    obtain ⟨h, hread⟩ := read_comment true hbreak hrest (by rintro ⟨⟩)
    rw [hchars] at hs
    obtain ⟨s', hnext, hat, -⟩ := hs.next_token (by decide) hread rfl
    rw [ofList_space] at hnext
    exact ⟨s', .single hnext nofun, hat⟩

/-! ### Scanning between rungs -/

/-- No character of a name is trimmed at the ends of a source. -/
theorem isMargin_of_isTagName (h : isTagName c = true) : Source.isMargin c = false := by
  rw [← Bool.not_eq_true]
  intro hmargin
  simp only [Source.isMargin, Bool.or_eq_true, beq_iff_eq] at hmargin
  rcases hmargin with ((((rfl | rfl) | rfl) | rfl) | rfl) | rfl <;> exact absurd h (by decide)

theorem isMargin_of_isWord (h : isWord c = true) : Source.isMargin c = false :=
  isMargin_of_isTagName (by simp [isTagName, isName, h])

/-- The line of an item starts with a character that is not trimmed. -/
theorem Item.Readable.toList_print {i : Item} (h : i.Readable) :
    ∃ c cs, i.print.toList = c :: cs ∧ Source.isMargin c = false := by
  match i, h with
  | .tag name none, ⟨hname, _⟩ =>
    obtain ⟨c, cs, hcs, hc, -⟩ := hname.toList_eq
    exact ⟨c, cs, hcs, isMargin_of_isWord hc⟩
  | .tag name (some t), ⟨hname, _⟩ =>
    obtain ⟨c, cs, hcs, hc, -⟩ := hname.toList_eq
    exact ⟨c, cs ++ ' ' :: t.toList, by simp [Item.print, hcs], isMargin_of_isWord hc⟩
  | .code expression true, _ => exact ⟨'=', ' ' :: expression.toList, by simp [Item.print], rfl⟩
  | .code expression false, _ => exact ⟨'-', ' ' :: expression.toList, by simp [Item.print], rfl⟩
  | .comment body, _ => exact ⟨'/', '!' :: ' ' :: body.toList, by simp [Item.print], rfl⟩

/-- A line break in an outline compares the depth of the next rung. -/
theorem At.next_break {r : Rung} (hitem : r.item.Readable)
    (hs : At k s depth line ('\n' :: ((r.print k).toList ++ rest))) :
    s.next = { s with rest := r.item.print.toList ++ rest, line := line + 1 }.indentTo
      (r.depth * k) := by
  obtain ⟨c, cs, hcs, hmargin⟩ := hitem.toList_print
  have hspace : c ≠ ' ' := by
    rintro rfl
    exact absurd hmargin (by decide)
  have hbreak : c ≠ '\n' := by
    rintro rfl
    exact absurd hmargin (by decide)
  have hchars : (r.print k).toList ++ rest =
      List.replicate (r.depth * k) ' ' ++ (r.item.print.toList ++ rest) := by
    simp [Rung.print, spaces]
  have hpos : ∀ c ∈ List.replicate (r.depth * k) ' ', isSpace c = true := by
    intro c hc
    rw [List.eq_of_mem_replicate hc]
    rfl
  have hneg : ∀ c ∈ (r.item.print.toList ++ rest).head?, isSpace c = false := by
    rw [hcs]
    simpa [isSpace] using hspace
  -- The spaces of the rung are its width, and what is behind them is not blank.
  have hwidth := takeWhile_append_of_stop hpos hneg
  have hdrop := dropWhile_append_of_stop hpos hneg
  have hnext : s.next = s.breakLine ((r.print k).toList ++ rest) := by
    unfold Scanner.next
    rw [hs.deferred, hs.rest]
    rfl
  have hblank : ((r.item.print.toList ++ rest).head? == some '\n') = false := by
    rw [hcs]
    simpa using hbreak
  rw [hnext, Scanner.breakLine, hchars]
  simp only [hwidth, hdrop, hs.region, hs.line, hblank, List.length_replicate]
  rfl

/-- Between two rungs, levels are opened or closed. -/
theorem emits_break {r : Rung} (hk : 1 ≤ k) (hr : r.depth ≤ depth + 1) (hitem : r.item.Readable)
    (hs : At k s depth line ('\n' :: ((r.print k).toList ++ rest))) :
    ∃ s', Emits s (glue depth r.depth (line + 1) ++
        List.replicate (depth - r.depth) ⟨.outdent, line + 1⟩) s' ∧
      At k s' r.depth (line + 1) (r.item.print.toList ++ rest) := by
  have hnext := hs.next_break hitem
  have hmul : ∀ {m n : Nat}, m < n → m * k < n * k := fun h => Nat.mul_lt_mul_of_pos_right h hk
  rcases Nat.lt_trichotomy r.depth depth with hlt | heq | hgt
  · -- The next rung closes levels: one of them now, the others are put aside.
    have hwidth := hmul hlt
    have hclose := closeTo?_levels hk (Nat.le_of_lt hlt)
    simp only [Scanner.indentTo, hs.indents, current_levels, Nat.ne_of_lt hwidth,
      Nat.lt_asymm hwidth, hclose, if_false, hs.deferred, List.nil_append] at hnext
    let s₁ : Scanner := { s with
      rest := r.item.print.toList ++ rest, line := line + 1, indents := ⟨levels k r.depth⟩
      deferred := [], last := some .outdent }
    have hglue : glue depth r.depth (line + 1) = [] := by
      rw [glue, if_neg (Nat.ne_of_lt hlt), if_neg (Nat.lt_asymm hlt)]
    have hcount : depth - r.depth = depth - r.depth - 1 + 1 := by omega
    rw [hglue, hcount]
    exact ⟨s₁, .step hnext (by rintro ⟨⟩) (Scanner.emits_deferred (s := s₁) rfl rfl _ _),
      ⟨rfl, hs.region, rfl, rfl, rfl⟩⟩
  · subst heq
    simp only [Scanner.indentTo, hs.indents, current_levels, if_true] at hnext
    rw [glue, if_pos rfl, Nat.sub_self]
    exact ⟨_, .single hnext (by rintro ⟨⟩), ⟨hs.deferred, hs.region, rfl, rfl, rfl⟩⟩
  · -- The next rung opens one level, as it cannot be deeper than that.
    have hdepth : r.depth = depth + 1 := by omega
    have hwidth := hmul hgt
    simp only [Scanner.indentTo, hs.indents, current_levels, Nat.ne_of_gt hwidth, hwidth, if_false,
      if_true] at hnext
    have hlevels : (⟨levels k depth⟩ : Indentation).push (r.depth * k) = ⟨levels k r.depth⟩ := by
      rw [Indentation.push, current_levels, if_pos hwidth, hdepth]
      rfl
    have hglue : glue depth r.depth (line + 1) = [⟨.indent, line + 1⟩] := by
      rw [glue, if_neg (Nat.ne_of_gt hgt), if_pos hgt]
    rw [hlevels] at hnext
    rw [hglue, Nat.sub_eq_zero_of_le (Nat.le_of_lt hgt)]
    exact ⟨_, .single hnext (by rintro ⟨⟩), ⟨hs.deferred, hs.region, rfl, rfl, rfl⟩⟩

/-- Behind the last rung all levels are closed. -/
theorem tape_end (hs : At k s depth line []) :
    s.tape.lexemes = List.replicate depth ⟨.outdent, line⟩ ++ [⟨.eos, line⟩] ∧
      s.tape.failure = none := by
  induction depth generalizing s with
  | zero =>
    have hnext : s.next = (.ok ⟨.eos, line⟩, { s with last := some .eos }) := by
      rw [← hs.line]
      simp [Scanner.next, hs.deferred, hs.rest, Scanner.finish, hs.indents, levels,
        Indentation.pop?, Scanner.yield, Scanner.emit, Token.opensVerbatim, Lexeme.kind, Token.kind]
    rw [Scanner.tape_of_eos hnext rfl]
    exact ⟨rfl, rfl⟩
  | succ depth ih =>
    have hnext : s.next = (.ok ⟨.outdent, line⟩,
        { s with indents := ⟨levels k depth⟩, last := some .outdent }) := by
      rw [← hs.line]
      simp [Scanner.next, hs.deferred, hs.rest, Scanner.finish, hs.indents, levels,
        Indentation.pop?, Scanner.yield, Scanner.emit, Token.opensVerbatim, Lexeme.kind, Token.kind]
    obtain ⟨hlexemes, hfailure⟩ := ih
      (s := { s with indents := ⟨levels k depth⟩, last := some .outdent })
      ⟨hs.deferred, hs.region, rfl, hs.line, hs.rest⟩
    rw [Scanner.tape_of_ok hnext (by rintro ⟨⟩)]
    exact ⟨congrArg (_ :: ·) hlexemes, hfailure⟩

theorem endsLine_tail (k : Nat) (rungs : List Rung) : EndsLine (tail k rungs) := by
  cases rungs with
  | nil => exact nofun
  | cons r rungs =>
    intro c hc
    exact (Option.some.inj hc).symm

/-- The rungs behind a rung are scanned one after the other. -/
theorem tape_rungs {rungs : List Rung} (hk : 1 ≤ k) (hrungs : ∀ r ∈ rungs, r.item.Readable)
    (hnested : Nested depth rungs) (hs : At k s depth line (tail k rungs)) :
    s.tape.lexemes = after depth line rungs ∧ s.tape.failure = none := by
  induction rungs generalizing s depth line with
  | nil => exact tape_end hs
  | cons r rungs ih =>
    obtain ⟨s₁, hbreak, hs₁⟩ := emits_break hk hnested.1 (hrungs r (.head _)) hs
    obtain ⟨s₂, hitem, hs₂⟩ := emits_item (hrungs r (.head _)) (endsLine_tail k rungs) hs₁
    obtain ⟨hlexemes, hfailure⟩ := ih (fun r hr => hrungs r (.tail _ hr)) hnested.2 hs₂
    obtain ⟨hlexemes', hfailure'⟩ := (hbreak.trans hitem).tape
    rw [hlexemes', hfailure', hlexemes, hfailure, after, List.append_assoc]
    exact ⟨rfl, rfl⟩

end Outline

end Offside
