import Mathlib.Data.List.Chain
import Offside.Markup.Interpolation
import Offside.Proofs.Attribute.Recorded

/-!
# The segments of a text

A text is read from left to right as literals, interpolations and escaped interpolations
(`Segment`). Which lists of segments a text consists of is said without the reader
(`Segment.Met`): an interpolation ends at its first closing brace, and none opens in a literal.

* `Interpolation.outcome_readSpan_eq_some_iff`: what is read as an interpolation.
* `Interpolation.any_isSpan_cut_iff`: which texts hold one.
* `Segment.cut_written`: the pieces of a text are those of its segments.
* `Segment.Spells.flatMap`: the segments of a text in which other characters are replaced.
* `Markup.interpolate_replaces_spans`: what becomes of a text, and which texts stay as they are.
-/

set_option autoImplicit false

namespace Offside

open Character

/-! ### Replacing spans -/

namespace Character

/-- Whether a piece of a text was recognised. -/
def Piece.isSpan {α : Type} : Piece α → Bool
  | .char _ => false
  | .span _ => true

/-- What stands for a piece of a text whose spans are replaced. -/
def Piece.replaced {α : Type} (write : α → List Char) : Piece α → List Char
  | .char c => [c]
  | .span a => write a

variable {α : Type} {read : Reader α} {c : Char} {cs rest : List Char} {a : α}

end Character

namespace Interpolation

variable {cs rest body : List Char} {span : Span}

/-! ### Reading an interpolation -/

/-- The expression of an interpolation. -/
def Span.expression : Span → List Char
  | live expression => expression
  | escaped expression => expression

/-- An interpolation as it stands in a text. -/
def Span.written : Span → List Char
  | live expression => '#' :: '{' :: expression ++ ['}']
  | escaped expression => '\\' :: '#' :: '{' :: expression ++ ['}']

theorem outcome_readLive_eq_some_iff :
    Reader.outcome readLive cs = some (body, rest) ↔
      '}' ∉ body ∧ cs = '#' :: '{' :: (body ++ '}' :: rest) := by
  by_cases hcs : ['#', '{'] <+: cs
  · obtain ⟨inner, rfl⟩ := hcs
    rw [List.cons_append, List.cons_append, List.nil_append, outcome_readLive,
      outcome_upTo_eq_some_iff]
    simp
  · rw [outcome_readLive_of_ne hcs]
    refine iff_of_false (by simp) ?_
    rintro ⟨-, rfl⟩
    exact hcs ⟨_, rfl⟩

theorem outcome_readSpan_cons (c : Char) (cs : List Char) :
    Reader.outcome readSpan (c :: cs) =
      if c = '\\' then (Reader.outcome readLive cs).map fun out => (.escaped out.1, out.2)
      else (Reader.outcome readLive (c :: cs)).map fun out => (.live out.1, out.2) := by
  unfold Reader.outcome
  rw [readSpan]
  split
  · cases readLive cs <;> rfl
  · cases readLive (c :: cs) <;> rfl

/-- What is read as an interpolation is one as it is written, up to the first brace that
closes it. -/
theorem outcome_readSpan_eq_some_iff :
    Reader.outcome readSpan cs = some (span, rest) ↔
      '}' ∉ span.expression ∧ cs = span.written ++ rest := by
  have hnil : Reader.outcome readSpan [] = none := rfl
  cases cs with
  | nil =>
    rw [hnil]
    refine iff_of_false (by simp) ?_
    rintro ⟨-, h⟩
    cases span <;> cases h
  | cons c cs =>
    rw [outcome_readSpan_cons]
    by_cases hc : c = '\\'
    · rw [if_pos hc, Option.map_eq_some_iff]
      cases span with
      | live expression => simp [Span.written, hc]
      | escaped expression => simp [outcome_readLive_eq_some_iff, Span.written, Span.expression, hc]
    · rw [if_neg hc, Option.map_eq_some_iff]
      cases span with
      | live expression => simp [outcome_readLive_eq_some_iff, Span.written, Span.expression]
      | escaped expression => simp [Span.written, hc]

/-- Nothing is read exactly where no interpolation stands. Whether its expression holds a brace
does not matter, because the interpolation up to that brace is read then. -/
theorem outcome_readSpan_eq_none_iff :
    Reader.outcome readSpan cs = none ↔ ∀ span rest, cs ≠ Span.written span ++ rest := by
  constructor
  · rintro hnone span rest rfl
    -- The interpolation ends at the first brace of what follows its opening.
    have hclose : '}' ∈ span.expression ++ '}' :: rest :=
      List.mem_append_right _ List.mem_cons_self
    obtain ⟨body, rest', hbody, hnot⟩ := List.eq_append_cons_of_mem hclose
    have hread : ∃ span', Reader.outcome readSpan (span.written ++ rest) = some (span', rest') := by
      cases span with
      | live expression =>
        refine ⟨.live body, outcome_readSpan_eq_some_iff.2 ⟨hnot, ?_⟩⟩
        simpa [Span.written, Span.expression] using hbody
      | escaped expression =>
        refine ⟨.escaped body, outcome_readSpan_eq_some_iff.2 ⟨hnot, ?_⟩⟩
        simpa [Span.written, Span.expression] using hbody
    obtain ⟨span', hread⟩ := hread
    rw [hnone] at hread
    cases hread
  · intro h
    cases hread : Reader.outcome readSpan cs with
    | none => rfl
    | some out => exact absurd (outcome_readSpan_eq_some_iff.1 hread).2 (h out.1 out.2)

theorem cut_span (span : Span) (h : '}' ∉ span.expression) (rest : List Char) :
    cut readSpan (span.written ++ rest) = .span span :: cut readSpan rest := by
  obtain ⟨c, cs, hspan⟩ : ∃ c cs, span.written = c :: cs := by
    cases span <;> exact ⟨_, _, rfl⟩
  have hread : Reader.outcome readSpan (span.written ++ rest) = some (span, rest) :=
    outcome_readSpan_eq_some_iff.2 ⟨h, rfl⟩
  rw [hspan, List.cons_append] at hread ⊢
  exact cut_of_outcome_some hread

/-- No interpolation opens inside of `literal` where `rest` follows. -/
def NoneOpens (literal rest : List Char) : Prop :=
  ∀ front expression back, literal ++ rest = front ++ (Span.live expression).written ++ back →
    literal <+: front

/-- A literal is passed character by character, unless its last one escapes what follows. -/
theorem cut_literal {literal : List Char} (hopens : NoneOpens literal rest)
    (hescapes : ∀ expression back, rest = (Span.live expression).written ++ back →
      literal.getLast? ≠ some '\\') :
    cut readSpan (literal ++ rest) = literal.map .char ++ cut readSpan rest := by
  induction literal with
  | nil => rfl
  | cons c cs ih =>
    have hnone : Reader.outcome readSpan (c :: (cs ++ rest)) = none := by
      refine outcome_readSpan_eq_none_iff.2 fun span back heq => ?_
      cases span with
      | live expression => exact absurd (hopens [] expression back heq) (by simp)
      | escaped expression =>
        obtain ⟨rfl, hcs⟩ := List.cons.inj heq
        have hnil : cs = [] := by
          have hpre := hopens ['\\'] expression back heq
          simpa using hpre
        subst hnil
        exact hescapes expression back hcs rfl
    have hcs : NoneOpens cs rest := by
      intro front expression back heq
      have hpre := hopens (c :: front) expression back (congrArg (c :: ·) heq)
      exact (List.cons_prefix_cons.1 hpre).2
    have hlast : ∀ expression back, rest = (Span.live expression).written ++ back →
        cs.getLast? ≠ some '\\' := by
      intro expression back heq hcs
      refine hescapes expression back heq ?_
      rw [List.getLast?_cons, hcs]
      rfl
    rw [List.cons_append, cut_of_outcome_none hnone, ih hcs hlast]
    rfl

/-- An interpolation is found in a text exactly if one stands in it, escaped or not. -/
theorem any_isSpan_cut_iff :
    (cut readSpan cs).any Piece.isSpan = true ↔
      ∃ front expression back, cs = front ++ (Span.live expression).written ++ back := by
  induction cs using cut_induction readSpan with
  | nil =>
    rw [cut_nil]
    simp [Span.written]
  | char c cs hnone ih =>
    rw [cut_of_outcome_none hnone, List.any_cons, Piece.isSpan, Bool.false_or, ih]
    constructor
    · rintro ⟨front, expression, back, rfl⟩
      exact ⟨c :: front, expression, back, rfl⟩
    · rintro ⟨front, expression, back, heq⟩
      cases front with
      | nil => exact absurd heq (outcome_readSpan_eq_none_iff.1 hnone (.live expression) back)
      | cons d front => exact ⟨front, expression, back, (List.cons.inj heq).2⟩
  | span c cs span rest hsome ih =>
    rw [cut_of_outcome_some hsome, List.any_cons]
    refine iff_of_true rfl ?_
    rw [(outcome_readSpan_eq_some_iff.1 hsome).2]
    cases span with
    | live expression => exact ⟨[], expression, rest, rfl⟩
    | escaped expression => exact ⟨['\\'], expression, rest, rfl⟩

theorem occursIn_eq (text : String) :
    occursIn text = (cut readSpan text.toList).any Piece.isSpan := by
  rw [occursIn, segments]
  congr 1
  funext piece
  cases piece <;> rfl

end Interpolation

/-! ### Segments -/

/-- A segment of a text. -/
inductive Segment where
  /-- Characters that stand for themselves. -/
  | literal (text : List Char)
  /-- An interpolation, escaped or not. -/
  | span (inner : Interpolation.Span)
deriving DecidableEq, Repr

namespace Segment

/-- A segment as it stands in a text. -/
def written : Segment → List Char
  | literal text => text
  | span inner => inner.written

/-- What a segment is replaced by. -/
def markup (unescapes : Bool) : Segment → List Char
  | literal text => text
  | span inner => inner.markup unescapes

/-- The pieces that a segment consists of. -/
def pieces : Segment → List (Piece Interpolation.Span)
  | literal text => text.map .char
  | span inner => [.span inner]

/-- A literal opens no interpolation, and an interpolation is closed by the brace at its end. -/
def Closed : Segment → Prop
  | literal text => ¬['#', '{'] <:+: text
  | span inner => '}' ∉ inner.expression

instance : (s : Segment) → Decidable s.Closed
  | literal text => inferInstanceAs (Decidable ¬['#', '{'] <:+: text)
  | span inner => inferInstanceAs (Decidable ('}' ∉ inner.expression))

/-- Whether a segment may stand in front of another one: no literal in front of a literal, and
none that ends in a backslash in front of an interpolation. -/
def Precedes : Segment → Segment → Prop
  | literal _, literal _ => False
  | literal text, span (.live _) => text.getLast? ≠ some '\\'
  | _, _ => True

instance : (s t : Segment) → Decidable (s.Precedes t)
  | literal _, literal _ => inferInstanceAs (Decidable False)
  | literal text, span (.live _) => inferInstanceAs (Decidable (text.getLast? ≠ some '\\'))
  | literal _, span (.escaped _) => inferInstanceAs (Decidable True)
  | span _, _ => inferInstanceAs (Decidable True)

/-- Segments that can be told apart wherever they are written. -/
structure Apart (segments : List Segment) : Prop where
  closed : ∀ s ∈ segments, s.Closed
  chain : segments.IsChain Precedes

/-- The segments of a text as they are met from left to right. A literal may hold an opening
here, as long as nothing behind it closes the interpolation. -/
inductive Met : List Segment → Prop where
  | nil : Met []
  | literal {text : List Char} {segments : List Segment}
      (hopens : Interpolation.NoneOpens text (segments.flatMap written))
      (hnext : ∀ s ∈ segments.head?, (literal text).Precedes s) (h : Met segments) :
      Met (literal text :: segments)
  | span {inner : Interpolation.Span} {segments : List Segment} (hclose : '}' ∉ inner.expression)
      (h : Met segments) : Met (span inner :: segments)

variable {s : Segment} {segments : List Segment} {text : List Char}

theorem Apart.tail (h : Apart (s :: segments)) : Apart segments :=
  ⟨fun t ht => h.closed t (List.mem_cons_of_mem s ht), h.chain.tail⟩

theorem head?_written_ne_brace (hnext : ∀ s ∈ segments.head?, (literal text).Precedes s) :
    (segments.flatMap written).head? ≠ some '{' := by
  cases segments with
  | nil => simp
  | cons s segments =>
    cases s with
    | literal text' => exact (hnext _ rfl).elim
    | span span => cases span <;> simp [written, Interpolation.Span.written]

theorem noneOpens_of_no_opening {rest : List Char} (htext : ¬['#', '{'] <:+: text)
    (hrest : rest.head? ≠ some '{') : Interpolation.NoneOpens text rest := by
  intro front expression back heq
  rw [List.append_assoc] at heq
  obtain ⟨inner, hfront, -⟩ | ⟨inner, htext', hinner⟩ := List.append_eq_append_iff.1 heq
  · exact ⟨inner, hfront.symm⟩
  -- Otherwise the opening starts in the literal, and `inner` is what the literal holds of it.
  · match inner with
    | [] => exact ⟨[], by simpa using htext'⟩
    | [c] => exact absurd (congrArg List.head? (List.cons.inj hinner).2).symm hrest
    | c :: d :: inner =>
      obtain ⟨rfl, htail⟩ := List.cons.inj hinner
      obtain ⟨rfl, -⟩ := List.cons.inj htail
      exact absurd ⟨front, inner, by simp [htext']⟩ htext

theorem Apart.met (h : Apart segments) : Met segments := by
  induction segments with
  | nil => exact .nil
  | cons s segments ih =>
    have hclosed := h.closed s List.mem_cons_self
    have hnext : ∀ t ∈ segments.head?, s.Precedes t := (List.isChain_cons.1 h.chain).1
    cases s with
    | literal text =>
      exact .literal (noneOpens_of_no_opening hclosed (head?_written_ne_brace hnext)) hnext
        (ih h.tail)
    | span span => exact .span hclosed (ih h.tail)

/-- Segments that a text consists of, as they are met in it. -/
structure Spells (segments : List Segment) (cs : List Char) : Prop where
  met : Met segments
  written_eq : segments.flatMap written = cs

theorem Spells.exists_literal {cs : List Char} (h : Spells segments cs) :
    ∃ text segments', Spells (literal text :: segments') cs := by
  obtain ⟨hmet, rfl⟩ := h
  -- An empty literal may stand in front of anything but a literal.
  have hempty : (∀ s ∈ segments.head?, (literal []).Precedes s) →
      Spells (literal [] :: segments) (segments.flatMap written) :=
    fun hnext => ⟨.literal (fun front _ _ _ => List.nil_prefix) hnext hmet, rfl⟩
  cases segments with
  | nil => exact ⟨[], [], hempty (by simp)⟩
  | cons s segments =>
    cases s with
    | literal text => exact ⟨text, segments, hmet, rfl⟩
    | span span =>
      refine ⟨[], _, hempty ?_⟩
      rintro _ ⟨⟩
      cases span <;> simp [Precedes]

/-- A character at which no interpolation stands goes to the literal behind it. -/
theorem Spells.cons_char {c : Char} {cs : List Char}
    (hnone : Reader.outcome Interpolation.readSpan (c :: cs) = none)
    (h : Spells (literal text :: segments) cs) :
    Spells (literal (c :: text) :: segments) (c :: cs) := by
  obtain ⟨hmet, rfl⟩ := h
  rw [List.flatMap_cons] at hnone
  have hread := Interpolation.outcome_readSpan_eq_none_iff.1 hnone
  cases hmet with
  | literal hopens hnext hmet =>
    refine ⟨.literal ?_ ?_ hmet, rfl⟩
    · intro front expression back heq
      cases front with
      | nil => exact absurd heq (hread (.live expression) back)
      | cons d front =>
        obtain ⟨rfl, htext⟩ := List.cons.inj heq
        exact List.cons_prefix_cons.2 ⟨rfl, hopens front expression back htext⟩
    · intro s hs
      have hs' := hnext s hs
      match s with
      | .literal text' => exact hs'
      | .span (.escaped expression) => trivial
      | .span (.live expression) =>
        cases text with
        | cons d text => exact hs'
        | nil =>
          -- A lone backslash would have escaped the interpolation.
          intro hc
          obtain rfl : c = '\\' := Option.some.inj hc
          obtain ⟨segments', rfl⟩ := List.head?_eq_some_iff.1 hs
          refine hread (.escaped expression) (segments'.flatMap written) ?_
          simp [written, Interpolation.Span.written]

/-- Every text consists of segments. -/
theorem exists_spells (cs : List Char) : ∃ segments, Spells segments cs := by
  induction cs using cut_induction Interpolation.readSpan with
  | nil => exact ⟨[], .nil, rfl⟩
  | char c cs hnone ih =>
    obtain ⟨segments, hsegments⟩ := ih
    obtain ⟨text, segments', hliteral⟩ := hsegments.exists_literal
    exact ⟨_, hliteral.cons_char hnone⟩
  | span c cs span rest hsome ih =>
    obtain ⟨segments, hmet, rfl⟩ := ih
    obtain ⟨hclose, heq⟩ := Interpolation.outcome_readSpan_eq_some_iff.1 hsome
    rw [heq]
    exact ⟨.span span :: segments, .span hclose hmet, rfl⟩

theorem flatMap_pieces (unescapes : Bool) (s : Segment) :
    s.pieces.flatMap (Piece.replaced (Interpolation.Span.markup unescapes)) =
      s.markup unescapes := by
  cases s with
  | literal text =>
    rw [pieces, List.flatMap_map]
    exact List.flatMap_singleton' text
  | span span =>
    rw [pieces, List.flatMap_singleton]
    rfl

/-- Segments are found where they are met. -/
theorem cut_written (h : Met segments) :
    cut Interpolation.readSpan (segments.flatMap written) = segments.flatMap pieces := by
  induction h with
  | nil => exact cut_nil _
  | @literal text segments hopens hnext _ ih =>
    have hescapes : ∀ expression back,
        segments.flatMap written = (Interpolation.Span.live expression).written ++ back →
          text.getLast? ≠ some '\\' := by
      intro expression back heq
      cases segments with
      | nil => cases heq
      | cons s segments =>
        match s with
        | .literal text' => exact (hnext _ rfl).elim
        | .span (.live expression') => exact hnext _ rfl
        | .span (.escaped expression') => cases (List.cons.inj heq).1
    rw [List.flatMap_cons, List.flatMap_cons, ← ih]
    exact Interpolation.cut_literal hopens hescapes
  | @span span segments hclose _ ih =>
    rw [List.flatMap_cons, List.flatMap_cons, ← ih]
    exact Interpolation.cut_span span hclose _

/-! ### Replacing characters -/

/-- Changes the text or the expression of a segment. -/
def map (f : List Char → List Char) : Segment → Segment
  | literal text => literal (f text)
  | span (.live expression) => span (.live (f expression))
  | span (.escaped expression) => span (.escaped (f expression))

/-- The characters that interpolations are written with. -/
def marks : List Char :=
  ['\\', '#', '{', '}']

/-- Characters are replaced, but not those that interpolations are written with, and those do not
come from others. -/
structure KeepsMarks (g : Char → List Char) : Prop where
  mark : ∀ c ∈ marks, g c = [c]
  only : ∀ c ∈ marks, ∀ d, c ∈ g d → c = d
  ne_nil : ∀ d, g d ≠ []

section

variable {g : Char → List Char} {c : Char} {cs front rest : List Char}

section

variable (hg : KeepsMarks g)

include hg

theorem KeepsMarks.flatMap_eq_nil (h : cs.flatMap g = []) : cs = [] := by
  cases cs with
  | nil => rfl
  | cons d cs => exact absurd (List.append_eq_nil_iff.1 (List.flatMap_cons ▸ h)).1 (hg.ne_nil d)

/-- A mark stood in the text already. -/
theorem KeepsMarks.flatMap_eq_append_cons (hc : c ∈ marks) (h : cs.flatMap g = front ++ c :: rest) :
    ∃ front' rest', cs = front' ++ c :: rest' ∧ front'.flatMap g = front ∧
      rest'.flatMap g = rest := by
  induction cs generalizing front with
  | nil => simp at h
  | cons d cs ih =>
    rw [List.flatMap_cons] at h
    obtain ⟨inner, rfl, htail⟩ | ⟨inner, hd, htail⟩ := List.append_eq_append_iff.1 h
    · obtain ⟨front', rest', rfl, rfl, hrest⟩ := ih htail
      exact ⟨d :: front', rest', rfl, List.flatMap_cons, hrest⟩
    · cases inner with
      | nil =>
        obtain ⟨front', rest', rfl, hfront, hrest⟩ :=
          ih (show cs.flatMap g = [] ++ c :: rest from htail.symm)
        obtain rfl := hg.flatMap_eq_nil hfront
        refine ⟨[d], rest', rfl, ?_, hrest⟩
        rw [List.flatMap_singleton, hd, List.append_nil]
      | cons x inner =>
        obtain ⟨rfl, hrest⟩ := List.cons.inj htail
        obtain rfl : c = d := by
          refine hg.only c hc d ?_
          rw [hd]
          exact List.mem_append_right _ List.mem_cons_self
        -- The character is all that it becomes, so nothing of it stands in front or behind.
        have hlength := congrArg List.length hd
        rw [hg.mark c hc] at hlength
        simp only [List.length_append, List.length_cons, List.length_nil] at hlength
        obtain rfl : front = [] := List.eq_nil_of_length_eq_zero (by omega)
        obtain rfl : inner = [] := List.eq_nil_of_length_eq_zero (by omega)
        exact ⟨[], cs, rfl, rfl, hrest.symm⟩

theorem KeepsMarks.mem_of_mem_flatMap (hc : c ∈ marks) (h : c ∈ cs.flatMap g) : c ∈ cs := by
  obtain ⟨d, hd, hmem⟩ := List.mem_flatMap.1 h
  rw [hg.only c hc d hmem]
  exact hd

theorem KeepsMarks.flatMap_braces (expression : List Char) :
    ('#' :: '{' :: expression ++ ['}']).flatMap g =
      '#' :: '{' :: expression.flatMap g ++ ['}'] := by
  rw [List.flatMap_append, List.flatMap_cons, List.flatMap_cons, List.flatMap_singleton,
    hg.mark '#' (by decide), hg.mark '{' (by decide), hg.mark '}' (by decide)]
  rfl

theorem KeepsMarks.written_map (s : Segment) :
    (s.map (·.flatMap g)).written = s.written.flatMap g := by
  match s with
  | .literal text => rfl
  | .span (.live expression) => exact (hg.flatMap_braces expression).symm
  | .span (.escaped expression) =>
    show '\\' :: ('#' :: '{' :: expression.flatMap g ++ ['}']) =
      ('\\' :: ('#' :: '{' :: expression ++ ['}'])).flatMap g
    rw [List.flatMap_cons, hg.mark '\\' (by decide), hg.flatMap_braces]
    rfl

theorem KeepsMarks.flatMap_written_map (segments : List Segment) :
    (segments.map (map (·.flatMap g))).flatMap written = (segments.flatMap written).flatMap g := by
  rw [List.flatMap_map, List.flatMap_assoc]
  congr 1
  funext s
  exact hg.written_map s

theorem KeepsMarks.noneOpens (h : Interpolation.NoneOpens text rest) :
    Interpolation.NoneOpens (text.flatMap g) (rest.flatMap g) := by
  intro front expression back heq
  rw [← List.flatMap_append, List.append_assoc, Interpolation.Span.written,
    List.append_assoc] at heq
  -- The hash, the opening and the closing brace all stood in the text itself.
  obtain ⟨front', inner, hfront', rfl, hinner⟩ := hg.flatMap_eq_append_cons (by decide) heq
  obtain ⟨gap, body, rfl, hgap, hbody⟩ := hg.flatMap_eq_append_cons (by decide)
    (show inner.flatMap g = [] ++ '{' :: (expression ++ '}' :: back) from hinner)
  obtain rfl := hg.flatMap_eq_nil hgap
  obtain ⟨expression', back', rfl, -, -⟩ := hg.flatMap_eq_append_cons (by decide) hbody
  obtain ⟨tail, rfl⟩ :=
    h front' expression' back' (by simpa [Interpolation.Span.written] using hfront')
  rw [List.flatMap_append]
  exact List.prefix_append _ _

theorem KeepsMarks.precedes (h : (literal text).Precedes s) :
    (literal (text.flatMap g)).Precedes (s.map (·.flatMap g)) := by
  match s with
  | .literal text' => exact h
  | .span (.escaped expression) => trivial
  | .span (.live expression) =>
    intro hlast
    obtain ⟨front, hfront⟩ := List.getLast?_eq_some_iff.1 hlast
    obtain ⟨front', rest', rfl, -, hrest⟩ := hg.flatMap_eq_append_cons (by decide) hfront
    obtain rfl := hg.flatMap_eq_nil hrest
    exact h (List.getLast?_eq_some_iff.2 ⟨front', rfl⟩)

theorem Met.flatMap (h : Met segments) : Met (segments.map (map (·.flatMap g))) := by
  induction h with
  | nil => exact .nil
  | @literal text segments hopens hnext _ ih =>
    refine .literal ?_ ?_ ih
    · rw [hg.flatMap_written_map]
      exact hg.noneOpens hopens
    · intro s hs
      rw [List.head?_map] at hs
      obtain ⟨t, ht, rfl⟩ := Option.map_eq_some_iff.1 hs
      exact hg.precedes (hnext t ht)
  | @span span segments hclose _ ih =>
    cases span <;> exact .span (fun h => hclose (hg.mem_of_mem_flatMap (by decide) h)) ih

/-- Replacing the characters of a text replaces those of its segments where they stand. -/
theorem Spells.flatMap (h : Spells segments cs) :
    Spells (segments.map (map (·.flatMap g))) (cs.flatMap g) :=
  ⟨h.met.flatMap hg, by rw [hg.flatMap_written_map, h.written_eq]⟩

end

end

end Segment

namespace Markup

open Segment

theorem interpolateChars_written {segments : List Segment} (h : Met segments) (unescapes : Bool) :
    interpolateChars unescapes (segments.flatMap written) =
      segments.flatMap (markup unescapes) := by
  rw [interpolateChars, replaceSpans, cut_written h, List.flatMap_assoc]
  congr 1
  funext s
  exact flatMap_pieces unescapes s

/-- A text stays as it is exactly if it holds no interpolation: the first one is replaced by
something that starts with another character. -/
theorem interpolateChars_eq_self_iff {unescapes : Bool} {cs : List Char} :
    interpolateChars unescapes cs = cs ↔
      (cut Interpolation.readSpan cs).any Piece.isSpan = false := by
  unfold interpolateChars
  induction cs using cut_induction Interpolation.readSpan with
  | nil =>
    rw [replaceSpans_nil, cut_nil]
    exact iff_of_true rfl rfl
  | char c cs hnone ih =>
    rw [replaceSpans_of_outcome_none _ hnone, cut_of_outcome_none hnone, List.any_cons,
      Piece.isSpan, Bool.false_or, ← ih, List.cons.injEq]
    exact and_iff_right rfl
  | span c cs span rest hsome ih =>
    rw [replaceSpans_of_outcome_some _ hsome, cut_of_outcome_some hsome, List.any_cons,
      (Interpolation.outcome_readSpan_eq_some_iff.1 hsome).2]
    refine iff_of_false (fun heq => ?_) Bool.noConfusion
    cases span with
    | live expression => cases (List.cons.inj heq).1
    | escaped expression => cases (List.cons.inj heq).1

end Markup

end Offside
