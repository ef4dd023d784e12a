import Offside.Proofs.Markup.Escaping
import Offside.Proofs.Markup.Siblings

/-!
# Lines of markup

Markup is put together from pieces that hold no line break (`Markup.Unbroken`) and from the
markup of other nodes, with line breaks in between. So what is asked of its lines is asked of
the pieces and of the other nodes (`Markup.lines_append_break`).

Only a text may be replaced across lines, where an interpolation holds line breaks. Its lines
change then, but not which of them are empty or consist of spaces (`hasLineOf_interpolate`),
because an interpolation and what it becomes both start and end with other characters.
-/

set_option autoImplicit false

namespace Offside

open Character

namespace Markup

variable {s a b : String} {p : Char → Bool} {cs ds : List Char}

/-! ### Texts without line breaks -/

/-- A text that holds no line break. -/
def Unbroken (s : String) : Prop :=
  '\n' ∉ s.toList

instance (s : String) : Decidable (Unbroken s) :=
  inferInstanceAs (Decidable ('\n' ∉ s.toList))

@[simp]
theorem unbroken_append : Unbroken (a ++ b) ↔ Unbroken a ∧ Unbroken b := by
  simp [Unbroken, String.toList_append]

theorem unbroken_spaces (width : Nat) : Unbroken (spaces width) := by
  simp [Unbroken, spaces]

theorem unbroken_ofList : Unbroken (String.ofList cs) ↔ '\n' ∉ cs := by
  simp [Unbroken]

/-- Escaping brings no line break into a text. -/
theorem unbroken_escape (h : Unbroken s) : Unbroken (escape s) :=
  unbroken_ofList.2 fun hmem => h (mem_of_mem_escapeChars (by decide) hmem)

/-- Interpolations bring no line break into a text. -/
theorem unbroken_interpolate (h : Unbroken s) : Unbroken (interpolate s false) := by
  obtain ⟨segments, hmet, hsegments⟩ := Segment.exists_spells s.toList
  rw [interpolate, ← hsegments, interpolateChars_written hmet, unbroken_ofList]
  intro hmem
  obtain ⟨segment, hsegment, hmem⟩ := List.mem_flatMap.1 hmem
  have hwritten : '\n' ∉ segment.written := by
    intro hwritten
    refine h ?_
    rw [← hsegments]
    exact List.mem_flatMap.2 ⟨segment, hsegment, hwritten⟩
  cases segment with
  | literal text => exact hwritten hmem
  | span span =>
    cases span <;> simp_all [Segment.written, Segment.markup, Interpolation.Span.written,
      Interpolation.Span.markup]

/-- Nor does replacing interpolations in an escaped text. -/
theorem unbroken_interpolate_escape (h : Unbroken s) : Unbroken (interpolate (escape s) true) := by
  obtain ⟨segments, hsegments⟩ := Segment.exists_spells s.toList
  rw [interpolate, escape, String.toList_ofList, hsegments.interpolateChars_escape, unbroken_ofList]
  exact Attribute.not_mem_flatMap_inValue hsegments (by decide) (by decide) (by decide) h

/-! ### The lines of a text -/

/-- The lines of a text. There is one at least. -/
def lines (s : String) : List (List Char) :=
  s.toList.splitOn '\n'

/-- A line break ends the last line of one text, and the first line of the other follows. -/
theorem lines_append_break (a b : String) : lines (a ++ "\n" ++ b) = lines a ++ lines b := by
  show (a ++ "\n" ++ b).toList.splitOn '\n' = _
  rw [String.toList_append, String.toList_append, List.append_assoc]
  exact List.splitOn_append_cons_self a.toList b.toList

theorem lines_of_unbroken (h : Unbroken s) : lines s = [s.toList] :=
  List.splitOn_eq_singleton h

/-- Lines put together with line breaks are the lines. -/
theorem lines_intercalate {ls : List String} (hls : ls ≠ []) (h : ∀ l ∈ ls, Unbroken l) :
    lines ("\n".intercalate ls) = ls.map String.toList := by
  rw [lines, String.toList_intercalate]
  refine List.splitOn_intercalate '\n' ?_ (by simpa using hls)
  intro l hl
  obtain ⟨line, hline, rfl⟩ := List.mem_map.1 hl
  exact h line hline

theorem intercalate_cons (between first : String) (others : List String) :
    between.intercalate (first :: others) = first ++ String.join (others.map (between ++ ·)) := by
  induction others generalizing first with
  | nil => simp
  | cons second others ih =>
    rw [String.intercalate_cons_of_ne_nil (List.cons_ne_nil _ _), ih]
    simp [String.append_assoc]

/-- A text with line breaks, taken apart at the first of them. -/
theorem exists_break (h : ¬Unbroken s) : ∃ a b, s = a ++ "\n" ++ b ∧ Unbroken a := by
  obtain ⟨as, bs, hs, has⟩ := List.eq_append_cons_of_mem (Decidable.not_not.1 h)
  refine ⟨String.ofList as, String.ofList bs, String.toList_inj.1 ?_, unbroken_ofList.2 has⟩
  simp [hs]

/-! ### Lines of some characters only -/

/-- Whether some line of a text consists of characters in `p`. -/
def hasLineOf (p : Char → Bool) (s : String) : Bool :=
  (lines s).any (·.all p)

/-- A text has such a line if one of its parts at a break has. -/
theorem hasLineOf_append_break (a b : String) :
    hasLineOf p (a ++ "\n" ++ b) = (hasLineOf p a || hasLineOf p b) := by
  rw [hasLineOf, lines_append_break, List.any_append]
  rfl

theorem hasLineOf_of_unbroken (h : Unbroken s) : hasLineOf p s = s.toList.all p := by
  simp [hasLineOf, lines_of_unbroken h]

/-- Looks for a line of characters in `p` from inside of a line. What stands in front on that
line is characters in `p` if `soFar` is set. -/
def scanLines (p : Char → Bool) (soFar : Bool) : List Char → Bool
  | [] => soFar
  | c :: cs =>
    if c = '\n' then soFar || scanLines p true cs else scanLines p (soFar && p c) cs

/-- The search looks at the rest of the first line together with what stands in front of it,
and at the other lines by themselves. -/
theorem scanLines_eq (p : Char → Bool) (cs : List Char) (soFar : Bool) :
    ∃ first others, cs.splitOn '\n' = first :: others ∧
      scanLines p soFar cs = ((soFar && first.all p) || others.any (·.all p)) := by
  induction cs generalizing soFar with
  | nil => exact ⟨[], [], List.splitOn_nil _, by simp [scanLines]⟩
  | cons c cs ih =>
    rw [List.splitOn_cons_eq_if_modifyHead, scanLines]
    by_cases hc : c = '\n'
    · obtain ⟨first, others, hsplit, hscan⟩ := ih true
      exact ⟨[], first :: others, by simp [hc, hsplit], by simp [hc, hscan]⟩
    · obtain ⟨first, others, hsplit, hscan⟩ := ih (soFar && p c)
      exact ⟨c :: first, others, by simp [hc, hsplit], by simp [hc, hscan, Bool.and_assoc]⟩

/-- From the start of a text the search is over all its lines. -/
theorem hasLineOf_eq_scanLines (p : Char → Bool) (s : String) :
    hasLineOf p s = scanLines p true s.toList := by
  obtain ⟨first, others, hsplit, hscan⟩ := scanLines_eq p s.toList true
  rw [hasLineOf, lines, hsplit, hscan, List.any_cons, Bool.true_and]

/-- A character that is not in `p` settles the line it is on. -/
theorem scanLines_cons_of_not {c : Char} (hc : p c = false) (hbreak : c ≠ '\n') (soFar : Bool) :
    scanLines p soFar (c :: cs) = scanLines p false cs := by
  simp [scanLines, hc, hbreak]

/-- On a line that is settled, other characters do not matter. -/
theorem scanLines_false_cons {c : Char} (hbreak : c ≠ '\n') :
    scanLines p false (c :: cs) = scanLines p false cs := by
  simp [scanLines, hbreak]

/-- Texts that cannot be told apart can be replaced behind any text. -/
theorem scanLines_append_congr (h : ∀ soFar, scanLines p soFar cs = scanLines p soFar ds)
    (front : List Char) (soFar : Bool) :
    scanLines p soFar (front ++ cs) = scanLines p soFar (front ++ ds) := by
  induction front generalizing soFar with
  | nil => exact h soFar
  | cons c front ih => simp only [List.cons_append, scanLines, ih]

/-- Which lines consist of characters in `p` does not depend on interpolations, if neither they
nor what they become start or end with such a character. -/
theorem scanLines_interpolateChars (hp : ∀ c ∈ "\\#\x7b\x7d<>?".toList, p c = false)
    (cs back : List Char) (soFar : Bool) :
    scanLines p soFar (interpolateChars false cs ++ back) = scanLines p soFar (cs ++ back) := by
  have hmark : ∀ c ∈ "\\#\x7b\x7d<>?".toList, ∀ {cs : List Char} {soFar : Bool},
      scanLines p soFar (c :: cs) = scanLines p false cs := by
    intro c hc cs soFar
    refine scanLines_cons_of_not (hp c hc) ?_ soFar
    rintro rfl
    exact absurd hc (by decide)
  unfold interpolateChars
  induction cs using cut_induction Interpolation.readSpan generalizing soFar with
  | nil => rw [replaceSpans_nil]
  | char c cs hnone ih =>
    rw [replaceSpans_of_outcome_none _ hnone]
    simp only [List.cons_append, scanLines, ih]
  | span c cs span rest hsome ih =>
    rw [replaceSpans_of_outcome_some _ hsome,
      (Interpolation.outcome_readSpan_eq_some_iff.1 hsome).2, List.append_assoc, List.append_assoc]
    generalize replaceSpans Interpolation.readSpan (Interpolation.Span.markup false) rest ++ back =
      after at ih
    generalize rest ++ back = rest at ih
    -- What stands in front of the expression settles the line it starts on, and what stands
    -- behind it settles the line it ends on.
    have hlive : ∀ expression, scanLines p false (expression ++ ' ' :: '?' :: '>' :: after) =
        scanLines p false (expression ++ '}' :: rest) := by
      intro expression
      refine scanLines_append_congr (fun soFar => ?_) expression false
      have hspace : scanLines p soFar (' ' :: '?' :: '>' :: after) =
          scanLines p (soFar && p ' ') ('?' :: '>' :: after) := by
        simp [scanLines]
      rw [hspace, hmark '?' (by decide), hmark '>' (by decide), hmark '}' (by decide), ih]
    have hescaped : ∀ expression, scanLines p false (expression ++ '}' :: after) =
        scanLines p false (expression ++ '}' :: rest) := by
      intro expression
      refine scanLines_append_congr (fun soFar => ?_) expression false
      rw [hmark '}' (by decide), hmark '}' (by decide), ih]
    cases span with
    | live expression =>
      have hmarkup : (Interpolation.Span.live expression).markup false ++ after =
          '<' :: '?' :: '=' :: ' ' :: (expression ++ ' ' :: '?' :: '>' :: after) := by
        simp [Interpolation.Span.markup]
      have hwritten : (Interpolation.Span.live expression).written ++ rest =
          '#' :: '{' :: (expression ++ '}' :: rest) := by
        simp [Interpolation.Span.written]
      rw [hmarkup, hwritten, hmark '<' (by decide), scanLines_false_cons (by decide),
        scanLines_false_cons (by decide), scanLines_false_cons (by decide), hlive,
        hmark '#' (by decide), scanLines_false_cons (by decide)]
    | escaped expression =>
      have hmarkup : (Interpolation.Span.escaped expression).markup false ++ after =
          '#' :: '{' :: (expression ++ '}' :: after) := by
        simp [Interpolation.Span.markup]
      have hwritten : (Interpolation.Span.escaped expression).written ++ rest =
          '\\' :: '#' :: '{' :: (expression ++ '}' :: rest) := by
        simp [Interpolation.Span.written]
      rw [hmarkup, hwritten, hmark '#' (by decide), scanLines_false_cons (by decide), hescaped,
        hmark '\\' (by decide), scanLines_false_cons (by decide), scanLines_false_cons (by decide)]

/-- So a text has such a line exactly if it had before its interpolations were replaced. -/
theorem hasLineOf_interpolate (hp : ∀ c ∈ "\\#\x7b\x7d<>?".toList, p c = false) (s : String) :
    hasLineOf p (interpolate s false) = hasLineOf p s := by
  have hscan := scanLines_interpolateChars hp s.toList [] true
  rw [List.append_nil, List.append_nil] at hscan
  rw [hasLineOf_eq_scanLines, hasLineOf_eq_scanLines, interpolate, String.toList_ofList, hscan]

/-- No interpolation starts with a space. -/
theorem interpolate_spaces_append (width : Nat) (s : String) :
    interpolate (spaces width ++ s) false = spaces width ++ interpolate s false := by
  have hchars : ∀ cs, interpolateChars false (List.replicate width ' ' ++ cs) =
      List.replicate width ' ' ++ interpolateChars false cs := by
    intro cs
    induction width with
    | zero => rfl
    | succ width ih =>
      have hnone : Reader.outcome Interpolation.readSpan
          (' ' :: (List.replicate width ' ' ++ cs)) = none := by
        refine Interpolation.outcome_readSpan_eq_none_iff.2 fun span rest heq => ?_
        cases span <;> cases (List.cons.inj heq).1
      rw [List.replicate_succ, List.cons_append, interpolateChars,
        replaceSpans_of_outcome_none _ hnone]
      exact congrArg (' ' :: ·) ih
  refine String.toList_inj.1 ?_
  simp [interpolate, spaces, hchars]

/-- A text without line breaks that is not made of spaces only. -/
structure Solid (s : String) : Prop where
  unbroken : Unbroken s
  visible : s.toList.all isSpace = false

instance (s : String) : Decidable (Solid s) :=
  decidable_of_iff (Unbroken s ∧ s.toList.all isSpace = false)
    ⟨fun h => ⟨h.1, h.2⟩, fun h => ⟨h.unbroken, h.visible⟩⟩

theorem solid_ofList (hbreak : '\n' ∉ cs) (hvisible : cs.all isSpace = false) :
    Solid (String.ofList cs) :=
  ⟨unbroken_ofList.2 hbreak, by rwa [String.toList_ofList]⟩

theorem Solid.append_left (hb : Solid b) (ha : Unbroken a) : Solid (a ++ b) :=
  ⟨unbroken_append.2 ⟨ha, hb.unbroken⟩, by simp [String.toList_append, hb.visible]⟩

theorem Solid.append_right (ha : Solid a) (hb : Unbroken b) : Solid (a ++ b) :=
  ⟨unbroken_append.2 ⟨ha.unbroken, hb⟩, by simp [String.toList_append, ha.visible]⟩

/-- A line that starts with something visible. -/
theorem Solid.append_append {c : String} (ha : Solid a) (hb : Unbroken b) (hc : Unbroken c) :
    Solid (a ++ b ++ c) :=
  (ha.append_right hb).append_right hc

theorem Solid.ne_empty (h : Solid s) : s ≠ "" := by
  rintro rfl
  exact absurd h.visible (by decide)

theorem Solid.hasLineOf_isSpace (h : Solid s) : hasLineOf isSpace s = false := by
  rw [hasLineOf_of_unbroken h.unbroken, h.visible]

end Markup

open Markup (Unbroken Solid)

/-- The value of an attribute holds no line break. -/
def Attribute.Value.Unbroken : Attribute.Value → Prop
  | .flag _ => True
  | .text value => Markup.Unbroken value
  | .list items => ∀ item ∈ items, Markup.Unbroken item

/-- No name and no value of an attribute holds a line break. -/
def Attributes.Unbroken (as : Attributes) : Prop :=
  ∀ entry ∈ as.entries, Markup.Unbroken entry.1 ∧ entry.2.Unbroken

/-- The markup of a list of names is one line. -/
theorem Attribute.unbroken_listMarkup {items : List String} (h : ∀ item ∈ items, Unbroken item) :
    Unbroken (listMarkup items) := by
  have hjoined : Unbroken (" ".intercalate items) := by
    induction items with
    | nil => decide
    | cons item items ih =>
      obtain ⟨hitem, hitems⟩ := List.forall_mem_cons.1 h
      cases items with
      | nil => simpa using hitem
      | cons next items =>
        rw [String.intercalate_cons_of_ne_nil (by simp)]
        simp only [Markup.unbroken_append]
        exact ⟨⟨hitem, by decide⟩, ih hitems⟩
  have hquoted : ∀ f : Char → Char, (∀ c, f c = '\n' → c = '\n') →
      Unbroken (String.ofList ((" ".intercalate items).toList.map f)) := by
    intro f hf
    rw [Markup.unbroken_ofList]
    intro hmem
    obtain ⟨c, hc, hfc⟩ := List.mem_map.1 hmem
    exact hjoined (hf c hfc ▸ hc)
  rw [listMarkup]
  split
  · simp only [Markup.unbroken_append]
    refine ⟨⟨by decide, Markup.unbroken_interpolate_escape (hquoted _ fun c hc => ?_)⟩, by decide⟩
    split at hc
    · cases hc
    · exact hc
  · simp only [Markup.unbroken_append]
    exact ⟨⟨by decide, Markup.unbroken_escape hjoined⟩, by decide⟩

/-- The markup of an attribute is one line. -/
theorem Attribute.unbroken_markup {entry : Attribute.Entry} (hkey : Unbroken entry.1)
    (hvalue : entry.2.Unbroken) : Unbroken (Entry.markup entry) := by
  obtain ⟨key, value⟩ := entry
  match value with
  | .flag false => exact List.not_mem_nil
  | .flag true =>
    rw [Entry.markup]
    split
    · exact Markup.unbroken_append.2 ⟨by decide, Markup.unbroken_interpolate hkey⟩
    · simp only [Markup.unbroken_append]
      exact ⟨⟨⟨⟨by decide, hkey⟩, by decide⟩, hkey⟩, by decide⟩
  | .text value =>
    simp only [Entry.markup, Markup.unbroken_append]
    exact ⟨⟨⟨⟨by decide, hkey⟩, by decide⟩, Markup.unbroken_interpolate_escape hvalue⟩, by decide⟩
  | .list items =>
    simp only [Entry.markup, Markup.unbroken_append]
    exact ⟨⟨⟨by decide, hkey⟩, by decide⟩, unbroken_listMarkup hvalue⟩

/-- The markup of attributes is one line. -/
theorem Attributes.Unbroken.markup {as : Attributes} (h : as.Unbroken) :
    Markup.Unbroken as.markup := by
  rw [Attributes.markup, Markup.Unbroken, String.toList_join, List.flatMap_map]
  intro hmem
  obtain ⟨entry, hentry, hmem⟩ := List.mem_flatMap.1 hmem
  exact Attribute.unbroken_markup (h entry hentry).1 (h entry hentry).2 hmem

theorem Layout.unbroken_indent (layout : Layout) (level : Nat) : Unbroken (layout.indent level) :=
  Markup.unbroken_spaces _

theorem Character.unbroken_trimLeadingSpaces {s : String} (h : Unbroken s) :
    Unbroken (trimLeadingSpaces s) := by
  rw [trimLeadingSpaces, Markup.unbroken_ofList]
  exact fun hmem => h ((List.dropWhile_sublist _).mem hmem)

theorem Character.unbroken_trimTrailingSpaces {s : String} (h : Unbroken s) :
    Unbroken (trimTrailingSpaces s) := by
  rw [trimTrailingSpaces, Markup.unbroken_ofList, trimEnd]
  intro hmem
  have hmem' := (List.dropWhile_sublist _).mem (List.mem_reverse.1 hmem)
  exact h (List.mem_reverse.1 hmem')

namespace Renderer

variable {r : Renderer}

/-- Code without its backslash is one line. -/
theorem unbroken_dropBackslash {s : String} (h : Unbroken s) : Unbroken (dropBackslash s) := by
  unfold dropBackslash
  split
  · rw [Markup.unbroken_ofList]
    exact fun hmem => h ((List.dropLast_sublist _).mem hmem)
  · exact h

/-! ### Texts -/

section

variable (hr : r.Unvisited)

include hr

/-- The lines of a text are indented, and then its interpolations are replaced. -/
theorem Unvisited.renderText_eq (level : Nat) {t : Text} (h : t.lines ≠ []) :
    r.renderText level t = .ok (Markup.interpolate
      ("\n".intercalate (t.lines.map (r.layout.indent level ++ ·))) false) := by
  have hlines : ∀ ls : List String, ls ≠ [] →
      r.layout.indent level ++ ("\n" ++ r.layout.indent level).intercalate ls =
        "\n".intercalate (ls.map (r.layout.indent level ++ ·)) := by
    intro ls hls
    induction ls with
    | nil => exact absurd rfl hls
    | cons l ls ih =>
      cases ls with
      | nil => simp
      | cons next ls =>
        have hnext : next :: ls ≠ [] := List.cons_ne_nil _ _
        rw [List.map_cons, String.intercalate_cons_of_ne_nil hnext,
          String.intercalate_cons_of_ne_nil (mt List.map_eq_nil_iff.1 hnext), ← ih hnext]
        simp only [String.append_assoc]
  rw [renderText, hr.visit, ← hlines t.lines h]
  show Except.ok _ = Except.ok _
  rw [Layout.indent, Markup.interpolate_spaces_append]

/-- A text without lines is rendered as its indentation. -/
theorem Unvisited.renderText_nil (level : Nat) {t : Text} (h : t.lines = []) :
    r.renderText level t = .ok (r.layout.indent level) := by
  rw [renderText, hr.visit]
  show Except.ok (r.layout.indent level ++
    Markup.interpolate (String.intercalate _ t.lines) false) = _
  rw [h]
  simp [Markup.interpolate, Markup.interpolateChars, replaceSpans_nil]

end

/-! ### Frames -/

/-- Code without a block is one visible line. -/
theorem solid_directive {head : Statement} (h : Unbroken head.expression) :
    Solid (directive head) := by
  have hopening : Solid (if head.buffered then "<?= " else "<?php ") := by
    split <;> decide
  exact hopening.append_append (unbroken_trimLeadingSpaces h) (by decide)

theorem solid_remark {body : String} (h : Unbroken body) : Solid ("<!-- " ++ body ++ " -->") :=
  Solid.append_append (by decide) h (by decide)

/-- A shown comment without a block is one line. -/
theorem Unvisited.renderComment_none (hr : r.Unvisited) (level : Nat) {head : Remark}
    (h : head.buffered = true) :
    r.renderComment level ⟨head, none⟩ =
      .ok (r.layout.indent level ++ ("<!-- " ++ head.body ++ " -->")) := by
  rw [renderComment_eq, hr.visit]
  show (if head.buffered then _ else _) = _
  rw [if_pos h]
  simp only [String.append_assoc]
  rfl

/-- Lines around the markup of a block. Each comes with the number of levels by which it is
indented further than the node that they belong to. -/
structure Frame where
  above : List (Nat × String)
  below : List (Nat × String)

/-- A line at its indentation. -/
def placed (layout : Layout) (level : Nat) (line : Nat × String) : String :=
  layout.indent (level + line.1) ++ line.2

/-- Markup between the lines of a frame. -/
def Frame.around (layout : Layout) (level : Nat) (f : Frame) (inner : String) : String :=
  "\n".intercalate
    (f.above.map (placed layout level) ++ inner :: f.below.map (placed layout level))

/-- The lines around the block of code. The expression of verbatim code stands on a line of its
own. Nothing stands below a branch of a conditional that is followed by another one. -/
def statementFrame (elseFollows : Bool) (head : Statement) : Frame :=
  let expression := trimLeadingSpaces head.expression
  if head.verbatim then ⟨[(0, "<?php"), (1, dropBackslash expression)], [(0, "?>")]⟩
  else
    match Control.classify head.expression with
    | some control =>
      ⟨[(0, "<?php " ++ trimTrailingSpaces expression ++ " ?>")],
        if control.closing = "endif" ∧ elseFollows then []
        else [(0, "<?php " ++ control.closing ++ "; ?>")]⟩
    | none =>
      ⟨[(0, (if head.buffered then "<?= " else "<?php ") ++ expression ++ " \x7b ?>")],
        [(0, "<?php \x7d ?>")]⟩

/-- The lines around the block of a comment. The body stands on a line of its own, unless it is a
condition. -/
def remarkFrame (head : Remark) : Frame :=
  if isConditional head.body then ⟨[(0, "<!--" ++ head.body ++ ">")], [(0, "<![endif]-->")]⟩
  else ⟨(0, "<!--") :: (if head.body = "" then [] else [(1, head.body)]), [(0, "-->")]⟩

/-- What is written in front of the content of a tag. -/
def opening (head : Element) : String :=
  "<" ++ head.name ++ head.attributes.markup

/-- The lines around the block of a tag, given the markup of what stands on its own line. -/
def elementFrame (head : Element) (inlines : List String) : Frame :=
  ⟨(0, opening head ++ ">") :: inlines.map fun inline => (1, inline),
    [(0, "</" ++ head.name ++ ">")]⟩

/-- The markup of the code on the line of a tag, if there is any. -/
def inlineCode (r : Renderer) (code : Option Code) : Except RenderError (List String) :=
  code.elim (.ok []) fun code => (r.renderCode 0 false code).map ([·])

/-- The markup of the text on the line of a tag, if it has lines. -/
def inlineText (r : Renderer) (text : Option Text) : Except RenderError (List String) :=
  text.elim (.ok []) fun text =>
    if text.lines = [] then .ok [] else (r.renderText 0 text).map ([·])

/-- The markup of the code and of the text that stand on the line of a tag. -/
def renderInlines (r : Renderer) (t : Tag) : Except RenderError (List String) := do
  let code ← r.inlineCode t.code
  let text ← r.inlineText t.text
  return code ++ text

/-- The code on the line of a tag, with some lead in front, as a list of texts. -/
theorem elim_eq_inlineCode (r : Renderer) (code : Option Code) (lead : String) :
    (code.map (r.renderCode 0 false)).elim (.ok "") (·.map (lead ++ ·)) =
      (r.inlineCode code).map fun inlines => String.join (inlines.map (lead ++ ·)) := by
  cases code with
  | none => rfl
  | some code =>
    show (r.renderCode 0 false code).map _ = ((r.renderCode 0 false code).map _).map _
    cases r.renderCode 0 false code <;> simp [Except.map, String.join]

/-- The same with the text on the line of a tag. -/
theorem elim_eq_inlineText (r : Renderer) (text : Option Text) (lead : String) :
    (text.elim (.ok "") fun text =>
      if text.lines = [] then .ok "" else (r.renderText 0 text).map (lead ++ ·)) =
      (r.inlineText text).map fun inlines => String.join (inlines.map (lead ++ ·)) := by
  cases text with
  | none => rfl
  | some text =>
    show (if text.lines = [] then _ else (r.renderText 0 text).map _) =
      (if text.lines = [] then _ else (r.renderText 0 text).map _).map _
    by_cases hlines : text.lines = []
    · rw [if_pos hlines, if_pos hlines]
      rfl
    · rw [if_neg hlines, if_neg hlines]
      cases r.renderText 0 text <;> simp [Except.map, String.join]

section

variable (hr : r.Unvisited)

include hr

/-- Code with a block is a frame around the block. -/
theorem Unvisited.renderCode_around (level : Nat) (elseFollows : Bool) (head : Statement)
    (block : Block) :
    r.renderCode level elseFollows ⟨head, some block⟩ =
      (r.renderBlock (level + 1) block).map
        ((statementFrame elseFollows head).around r.layout level) := by
  rw [hr.renderCode_some]
  congr 1
  funext inner
  unfold codeFrame statementFrame Frame.around placed
  cases hverbatim : head.verbatim with
  | true => simp [String.append_assoc]
  | false =>
    cases hclassify : Control.classify head.expression with
    | none => simp [String.append_assoc]
    | some control =>
      by_cases hends : control.closing = "endif" ∧ elseFollows = true <;>
        simp [hends, String.append_assoc]

/-- A shown comment with a block is a frame around the block. -/
theorem Unvisited.renderComment_around (level : Nat) {head : Remark} (h : head.buffered = true)
    (block : Block) :
    r.renderComment level ⟨head, some block⟩ =
      (r.renderBlock (level + 1) block).map ((remarkFrame head).around r.layout level) := by
  rw [hr.renderComment_some level h]
  congr 1
  funext inner
  unfold commentFrame remarkFrame Frame.around placed
  by_cases hconditional : isConditional head.body = true
  · simp [hconditional, String.append_assoc]
  · rw [if_neg hconditional, if_neg hconditional]
    by_cases hbody : head.body = "" <;> simp [hbody, String.append_assoc]

/-- A tag is one line, or a frame around its block. -/
theorem Unvisited.renderTag_around (level : Nat) (t : Tag) :
    r.renderTag level t =
      if t.name ∈ selfClosingTags then
        .ok (r.layout.indent level ++ (opening t.toElement ++ " />"))
      else
        r.renderInlines t >>= fun inlines =>
          if t.children.children.isEmpty then
            .ok (r.layout.indent level ++
              (opening t.toElement ++ ">" ++ String.join inlines ++ "</" ++ t.name ++ ">"))
          else
            (r.renderBlock (level + 1) t.children).map
              ((elementFrame t.toElement inlines).around r.layout level) := by
  rw [hr.renderTag_eq, tagAround]
  by_cases hname : t.name ∈ selfClosingTags
  · simp [hname, opening, String.append_assoc]
  rw [if_neg hname, if_neg hname, renderInlines]
  rw [elim_eq_inlineCode, elim_eq_inlineText]
  -- Both parts are lists of texts now, and it does not matter what they are.
  generalize r.inlineCode t.code = code
  generalize r.inlineText t.text = text
  cases code with
  | error e => rfl
  | ok code =>
    cases text with
    | error e => rfl
    | ok text =>
      cases hnested : t.children.children.isEmpty with
      | true =>
        simp [Except.map, bind, Except.bind, pure, Except.pure, opening, String.append_assoc]
      | false =>
        show ((r.renderBlock (level + 1) t.children).map _ >>= _) = _
        cases r.renderBlock (level + 1) t.children with
        | error e => rfl
        | ok inner =>
          simp [Except.map, bind, Except.bind, pure, Except.pure, Frame.around, elementFrame,
            opening, placed, Function.comp_def, String.append_assoc, Markup.intercalate_cons]

end

/-! ### The lines of frames -/

/-- All lines of a frame. -/
def Frame.lines (f : Frame) : List (Nat × String) :=
  f.above ++ f.below

/-- The lines around the block of code are visible, but for the first line of verbatim code, which
may be blank. -/
theorem statementFrame_lines (elseFollows : Bool) {head : Statement}
    (h : Unbroken head.expression) :
    ∀ line ∈ (statementFrame elseFollows head).lines, Solid line.2 ∨
      head.verbatim = true ∧ line = (1, dropBackslash (trimLeadingSpaces head.expression)) := by
  have htrimmed := unbroken_trimLeadingSpaces h
  unfold statementFrame Frame.lines
  cases head.verbatim with
  | true =>
    have hfirst : Solid "<?php" := by decide
    have hlast : Solid "?>" := by decide
    simp [hfirst, hlast]
  | false =>
    cases Control.classify head.expression with
    | some control =>
      have hfirst : Solid ("<?php " ++ trimTrailingSpaces (trimLeadingSpaces head.expression) ++
          " ?>") :=
        .append_append (by decide) (unbroken_trimTrailingSpaces htrimmed) (by decide)
      have hlast : Solid ("<?php " ++ control.closing ++ "; ?>") := by
        cases control <;> decide
      by_cases hends : control.closing = "endif" ∧ elseFollows = true <;>
        simp [hends, hfirst, hlast]
    | none =>
      have hopening : Solid (if head.buffered then "<?= " else "<?php ") := by
        split <;> decide
      have hfirst := hopening.append_append htrimmed (c := " \x7b ?>") (by decide)
      have hlast : Solid "<?php \x7d ?>" := by decide
      simp [hfirst, hlast]

/-- The lines around the block of a comment are visible, if its body is. -/
theorem remarkFrame_lines {head : Remark} (h : Unbroken head.body) :
    ∀ line ∈ (remarkFrame head).lines, Solid line.2 ∨ head.body ≠ "" ∧ line = (1, head.body) := by
  unfold remarkFrame Frame.lines
  by_cases hconditional : isConditional head.body = true
  · have hfirst : Solid ("<!--" ++ head.body ++ ">") := .append_append (by decide) h (by decide)
    have hlast : Solid "<![endif]-->" := by decide
    simp [hconditional, hfirst, hlast]
  · have hfirst : Solid "<!--" := by decide
    have hlast : Solid "-->" := by decide
    rw [if_neg hconditional]
    by_cases hbody : head.body = "" <;> simp [hbody, hfirst, hlast]

/-- A tag starts with a visible line. -/
theorem solid_opening {head : Element} (hname : Unbroken head.name)
    (hattributes : head.attributes.Unbroken) : Solid (opening head) :=
  .append_append (by decide) hname hattributes.markup

/-- The lines around the block of a tag are visible, but for those of its code and its text. -/
theorem elementFrame_lines {head : Element} (hname : Unbroken head.name)
    (hattributes : head.attributes.Unbroken) (inlines : List String) :
    ∀ line ∈ (elementFrame head inlines).lines,
      Solid line.2 ∨ ∃ inline ∈ inlines, line = (1, inline) := by
  have hfirst : Solid (opening head ++ ">") :=
    (solid_opening hname hattributes).append_right (by decide)
  have hlast : Solid ("</" ++ head.name ++ ">") := .append_append (by decide) hname (by decide)
  intro line hline
  simp only [elementFrame, Frame.lines, List.cons_append, List.mem_cons, List.mem_append,
    List.mem_map, List.not_mem_nil, or_false] at hline
  rcases hline with rfl | ⟨inline, hinline, rfl⟩ | rfl
  · exact .inl hfirst
  · exact .inr ⟨inline, hinline, rfl⟩
  · exact .inl hlast

/-- The filters of the language put their text between two lines. -/
theorem exists_frame_of_builtin {entry : String × TextFilter} (h : entry ∈ TextFilter.builtin) :
    ∃ f : Frame, f.above ≠ [] ∧ (∀ line ∈ f.lines, Solid line.2) ∧
      ∀ layout level attributes text,
        entry.2 text attributes (Layout.indent layout level) = f.around layout level text := by
  have hwrap : ∀ opening closing, Solid opening → Solid closing →
      ∃ f : Frame, f.above ≠ [] ∧ (∀ line ∈ f.lines, Solid line.2) ∧
        ∀ layout level attributes text,
          TextFilter.wrap opening closing text attributes (Layout.indent layout level) =
            f.around layout level text := by
    intro opening closing hopening hclosing
    refine ⟨⟨[(0, opening)], [(0, closing)]⟩, List.cons_ne_nil _ _,
      by simp [Frame.lines, hopening, hclosing], ?_⟩
    intro layout level attributes text
    simp [TextFilter.wrap, Frame.around, placed, String.append_assoc]
  simp only [TextFilter.builtin, List.mem_cons, List.not_mem_nil, or_false] at h
  rcases h with rfl | rfl | rfl | rfl <;>
    exact hwrap _ _ (by decide) (by decide)

/-- A renderer without visitors, and without filters other than those of the language. -/
structure Unextended (r : Renderer) : Prop where
  unvisited : r.Unvisited
  builtin : ∀ entry ∈ r.filters, entry ∈ TextFilter.builtin

/-- A filter is not registered, or it puts a frame around its text. -/
theorem Unextended.renderFilter_cases (hr : r.Unextended) (head : Directive) :
    (∀ level body, r.renderFilter level ⟨head, body⟩ = .error (.unregisteredFilter head.name)) ∨
    ∃ f : Frame, f.above ≠ [] ∧ (∀ line ∈ f.lines, Solid line.2) ∧ ∀ level body,
      r.renderFilter level ⟨head, body⟩ =
        (r.renderNode (level + 1) false body).map (f.around r.layout level) := by
  cases hfound : r.filter? head.name with
  | none =>
    left
    intro level body
    rw [renderFilter_eq, hr.unvisited.visit]
    show (r.findFilter head.name >>= _) = _
    rw [findFilter, hfound]
    rfl
  | some filter =>
    right
    obtain ⟨before, after, hfilters, -⟩ := List.lookup_eq_some_iff.1 hfound
    have hbuiltin : (head.name, filter) ∈ TextFilter.builtin :=
      hr.builtin _ (hfilters ▸ List.mem_append_right before List.mem_cons_self)
    obtain ⟨f, habove, hf, haround⟩ := exists_frame_of_builtin hbuiltin
    refine ⟨f, habove, hf, fun level body => ?_⟩
    rw [renderFilter_eq, hr.unvisited.visit]
    show (r.findFilter head.name >>= fun _ => (r.renderNode (level + 1) false body).map _) = _
    rw [findFilter, hfound]
    cases r.renderNode (level + 1) false body with
    | error e => rfl
    | ok text => exact congrArg Except.ok (haround r.layout level head.attributes text)

end Renderer

end Offside
