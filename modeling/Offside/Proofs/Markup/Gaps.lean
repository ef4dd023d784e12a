import Offside.Proofs.Document.Lined
import Offside.Proofs.Markup.Below

/-!
# Blank lines in markup

Nodes without markup leave no line behind in a block: hidden comments, and empty texts where
lines are not indented (`Node.isMute`). But tags, code and shown comments put a frame of lines
around their block, and the frame has a line for the block also if the block has no markup. Such
a node is hollow (`Node.isHollow`), and it is the only source of blank lines besides texts and
code that are blank themselves (`Node.holdsBlank`).

`blank_line_iff_hollow_or_blank` states this for every template and every layout. Lines are
counted in markup that is not empty.
-/

set_option autoImplicit false

namespace Offside

open Character
open Renderer (dropBackslash selfClosingTags)

namespace Markup

variable {s a b : String} {p : Char → Bool} {cs ds : List Char}

/-! ### Lines across pieces -/

/-- Lines in front of a break are those of what is there, and behind it a line starts anew. -/
theorem scanLines_append_break (soFar : Bool) :
    scanLines p soFar (cs ++ '\n' :: ds) = (scanLines p soFar cs || scanLines p true ds) := by
  induction cs generalizing soFar with
  | nil => simp [scanLines]
  | cons c cs ih => by_cases hc : c = '\n' <;> simp [scanLines, hc, ih, Bool.or_assoc]

/-- What stands in front on the same line counts with it. -/
theorem scanLines_append_of_not_mem (h : '\n' ∉ cs) (soFar : Bool) (ds : List Char) :
    scanLines p soFar (cs ++ ds) = scanLines p (soFar && cs.all p) ds := by
  induction cs generalizing soFar with
  | nil => simp
  | cons c cs ih =>
    rw [List.mem_cons, not_or] at h
    simp [scanLines, Ne.symm h.1, ih h.2, Bool.and_assoc]

theorem scanLines_append_of_solid (h : Solid s) (soFar : Bool) :
    scanLines isSpace soFar (s.toList ++ cs) = scanLines isSpace false cs := by
  rw [scanLines_append_of_not_mem h.unbroken, h.visible, Bool.and_false]

/-- Texts with breaks between them have a line of a kind if one of them has. -/
theorem hasLineOf_intercalate {ls : List String} (hls : ls ≠ []) :
    hasLineOf p ("\n".intercalate ls) = ls.any (hasLineOf p) := by
  induction ls with
  | nil => exact absurd rfl hls
  | cons l ls ih =>
    cases ls with
    | nil => simp
    | cons next ls =>
      have hnext : next :: ls ≠ [] := List.cons_ne_nil _ _
      rw [String.intercalate_cons_of_ne_nil hnext, hasLineOf_append_break, ih hnext]
      rfl

/-- Spaces in front do not make a line less blank. -/
theorem hasLineOf_spaces_append (width : Nat) (s : String) :
    hasLineOf isSpace (spaces width ++ s) = hasLineOf isSpace s := by
  rw [hasLineOf_eq_scanLines, hasLineOf_eq_scanLines, String.toList_append,
    scanLines_append_of_not_mem (unbroken_spaces width)]
  simp [spaces, isSpace]

/-! ### Blank lines -/

/-- Whether some line of a text is empty or made of spaces. The empty text has no lines. -/
def hasBlankLine (s : String) : Bool :=
  s ≠ "" && hasLineOf isSpace s

/-- In terms of lines. -/
theorem hasBlankLine_iff : hasBlankLine s = true ↔
    s ≠ "" ∧ ∃ line ∈ lines s, ∀ c ∈ line, c = ' ' := by
  simp [hasBlankLine, hasLineOf, isSpace]

/-- Markup below markup has a blank line if one of the two has, also if one is empty. -/
theorem hasBlankLine_joinLines_pair (a b : String) :
    hasBlankLine (joinLines [a, b]) = (hasBlankLine a || hasBlankLine b) := by
  by_cases ha : a = ""
  · rw [ha, joinLines_cons_empty, joinLines_singleton]
    rfl
  by_cases hb : b = ""
  · have hpair : joinLines [a, ""] = a := by simp [joinLines, ha]
    rw [hb, hpair]
    simp [hasBlankLine]
  · simp [joinLines_pair ha hb, hasBlankLine, hasLineOf_append_break, ha, hb]

/-- Whether some markup is empty, and whether it has a blank line. -/
structure Vacancy (s : String) (mute blank : Bool) : Prop where
  eq_empty_iff : s = "" ↔ mute = true
  hasBlankLine : hasBlankLine s = blank

namespace Vacancy

variable {mute mute' blank blank' : Bool}

/-- Markup that is not empty. -/
theorem of_ne_empty (h : s ≠ "") : Vacancy s false (hasLineOf isSpace s) :=
  ⟨by simp [h], by simp [Markup.hasBlankLine, h]⟩

theorem of_solid (h : Solid s) : Vacancy s false false := by
  have hvacancy := of_ne_empty h.ne_empty
  rwa [h.hasLineOf_isSpace] at hvacancy

theorem empty : Vacancy "" true false :=
  ⟨by simp, rfl⟩

/-- Empty markup is a blank line as soon as it is put on a line. -/
theorem hasLineOf (h : Vacancy s mute blank) : hasLineOf isSpace s = (mute || blank) := by
  cases mute with
  | true =>
    rw [h.eq_empty_iff.2 rfl]
    rfl
  | false =>
    have hne : s ≠ "" := fun hs => Bool.false_ne_true (h.eq_empty_iff.1 hs)
    simpa [Markup.hasBlankLine, hne] using h.hasBlankLine

/-- Markup joined with other markup is empty if both are, and has a blank line if one has. -/
theorem joinLines_cons {parts : List String} (h : Vacancy s mute blank)
    (h' : Vacancy (joinLines parts) mute' blank') :
    Vacancy (joinLines (s :: parts)) (mute && mute') (blank || blank') := by
  refine ⟨?_, ?_⟩
  · rw [Bool.and_eq_true, ← h.eq_empty_iff, ← h'.eq_empty_iff]
    refine ⟨fun heq => ⟨?_, ?_⟩, fun ⟨hs, hparts⟩ => ?_⟩
    · exact Decidable.not_not.1 fun hs => joinLines_cons_ne_empty (.inl hs) heq
    · exact Decidable.not_not.1 fun hparts => joinLines_cons_ne_empty (.inr hparts) heq
    · rw [hs, joinLines_cons_empty, hparts]
  · rw [Markup.joinLines_cons, hasBlankLine_joinLines_pair, h.hasBlankLine, h'.hasBlankLine]

end Vacancy

/-- A text that has other characters than spaces on its first line and on its last line. So it
does not matter to its lines what stands in front and behind. -/
def Bounded (s : String) : Prop :=
  ∀ soFar rest, scanLines isSpace soFar (s.toList ++ rest) =
    (hasLineOf isSpace s || scanLines isSpace false rest)

/-- A visible line is bounded. -/
theorem Solid.bounded (h : Solid s) : Bounded s := by
  intro soFar rest
  rw [scanLines_append_of_solid h, h.hasLineOf_isSpace, Bool.false_or]

/-- Between two visible lines anything may stand. -/
theorem bounded_between (ha : Solid a) (hb : Solid b) (mid : String) :
    Bounded (a ++ "\n" ++ (mid ++ "\n" ++ b)) := by
  intro soFar rest
  have hlist : (a ++ "\n" ++ (mid ++ "\n" ++ b)).toList ++ rest =
      a.toList ++ '\n' :: (mid.toList ++ '\n' :: (b.toList ++ rest)) := by
    simp
  rw [hlist, ha.bounded, hasLineOf_append_break, hasLineOf_append_break, ha.hasLineOf_isSpace,
    hb.hasLineOf_isSpace, scanLines, if_pos rfl, scanLines_append_break,
    scanLines_append_of_solid hb, hasLineOf_eq_scanLines]
  simp

/-- So lines are bounded if the first one and the last one are visible. -/
theorem bounded_intercalate (ha : Solid a) (hb : Solid b) (mid : List String) :
    Bounded ("\n".intercalate (a :: (mid ++ [b]))) := by
  rw [String.intercalate_cons_of_ne_nil (by simp)]
  cases mid with
  | nil =>
    intro soFar rest
    have hlist : (a ++ "\n" ++ "\n".intercalate ([] ++ [b])).toList ++ rest =
        a.toList ++ '\n' :: (b.toList ++ rest) := by
      simp
    rw [hlist, ha.bounded, List.nil_append, String.intercalate_singleton, hasLineOf_append_break,
      scanLines, if_pos rfl, hb.bounded]
    simp [Bool.or_assoc]
  | cons m mid =>
    rw [String.intercalate_append_of_ne_nil (List.cons_ne_nil _ _) (List.cons_ne_nil _ _),
      String.intercalate_singleton]
    exact bounded_between ha hb _

/-- Pieces between two tags on one line: the first of them are bounded, and the others start and end
on the lines of what stands around them. -/
theorem hasLineOf_inline {front back : String} {codes texts : List String} (hfront : Solid front)
    (hcodes : ∀ s ∈ codes, Bounded s)
    (htexts : ∀ back, scanLines isSpace false ((String.join texts).toList ++ '<' :: back) =
      scanLines isSpace false back) (hback : Unbroken back) :
    hasLineOf isSpace (front ++ String.join (codes ++ texts) ++ ("<" ++ back)) =
      codes.any (hasLineOf isSpace) := by
  have hlist : (front ++ String.join (codes ++ texts) ++ ("<" ++ back)).toList =
      front.toList ++ ((String.join (codes ++ texts)).toList ++ '<' :: back.toList) := by
    simp
  rw [hasLineOf_eq_scanLines, hlist, scanLines_append_of_solid hfront]
  -- A piece of code ends on a visible line, so the next piece starts on one as well.
  induction codes with
  | nil =>
    have hend := scanLines_append_of_not_mem (p := isSpace) hback false []
    rw [List.append_nil] at hend
    rw [List.nil_append, htexts, hend]
    rfl
  | cons code codes ih =>
    obtain ⟨hcode, hothers⟩ := List.forall_mem_cons.1 hcodes
    have hjoin : (String.join (code :: codes ++ texts)).toList ++ '<' :: back.toList =
        code.toList ++ ((String.join (codes ++ texts)).toList ++ '<' :: back.toList) := by
      simp
    rw [hjoin, hcode, ih hothers (by simp), List.any_cons]

/-- Interpolations are not replaced by nothing. -/
theorem interpolate_eq_empty_iff : interpolate s false = "" ↔ s = "" := by
  have hchars : interpolateChars false s.toList = [] ↔ s.toList = [] := by
    cases s.toList with
    | nil => simp [interpolateChars, replaceSpans_nil]
    | cons c cs =>
      refine iff_of_false ?_ (List.cons_ne_nil c cs)
      cases hread : Reader.outcome Interpolation.readSpan (c :: cs) with
      | none =>
        rw [interpolateChars, replaceSpans_of_outcome_none _ hread]
        exact List.cons_ne_nil _ _
      | some out =>
        -- The marks of a span are never empty, also where its expression is.
        rw [interpolateChars, replaceSpans_of_outcome_some _ hread]
        cases out.1 <;> simp [Interpolation.Span.markup]
  rw [interpolate, ← String.toList_inj, ← String.toList_inj, String.toList_ofList]
  exact hchars

end Markup

open Markup (Bounded Vacancy Solid Unbroken hasLineOf scanLines)

/-! ### Documents -/

/-- Whether a text has no characters. -/
def Text.isVoid (t : Text) : Bool :=
  t.lines = [] || t.lines = [""]

/-- Whether a text has a line that is empty or made of spaces, or no lines at all. -/
def Text.hasBlankLine (t : Text) : Bool :=
  t.lines = [] || t.lines.any fun line => line.toList.all isSpace

/-- Whether a node has no markup. An empty text has none where lines are not `padded`. -/
def Node.isMute (padded : Bool) : Node → Bool
  | .text t => !padded && t.isVoid
  | .comment c => !c.buffered
  | _ => false

/-- Whether a node is a text that has markup with a blank line. -/
def Node.showsBlank (padded : Bool) : Node → Bool
  | .text t => t.hasBlankLine && !(Node.text t).isMute padded
  | _ => false

/-- Whether no node of a block has markup. -/
def Block.isMute (padded : Bool) (b : Block) : Bool :=
  b.children.all (·.isMute padded)

/-- Whether a block holds a text that has markup with a blank line. -/
def Block.showsBlank (padded : Bool) (b : Block) : Bool :=
  b.children.any (·.showsBlank padded)

/-- The block that a node puts a frame around. -/
def Node.framed? : Node → Option Block
  | .tag t => if t.name ∈ selfClosingTags ∨ t.children.children = [] then none else some t.children
  | .code c => c.block
  | .comment c => if c.buffered then c.block else none
  | _ => none

/-- Whether a node puts a frame around a block without markup. -/
def Node.isHollow (padded : Bool) (node : Node) : Bool :=
  node.framed?.any (·.isMute padded)

/-- Whether a line that a node brings itself is blank: the first line of verbatim code, or a line
of the text that a filter is applied to. -/
def Node.bringsBlank : Node → Bool
  | .code c => c.block.isSome && c.verbatim &&
    (dropBackslash (trimLeadingSpaces c.expression)).toList.all isSpace
  | .filter f =>
    match f.body with
    | .text t => t.hasBlankLine
    | _ => false
  | _ => false

/-- Whether a node shows a blank line because a text or code is blank. -/
def Node.holdsBlank (padded : Bool) (node : Node) : Bool :=
  node.bringsBlank || node.framed?.any (·.showsBlank padded)

/-- Whether a node leaves a blank line of its own in the markup. -/
def Node.leavesBlank (padded : Bool) (node : Node) : Bool :=
  node.holdsBlank padded || node.isHollow padded

/-- A frame around a block makes a blank line of it if the block is mute, or shows one. -/
theorem Node.leavesBlank_eq (padded : Bool) (node : Node) :
    node.leavesBlank padded =
      (node.bringsBlank || node.framed?.any fun b => b.isMute padded || b.showsBlank padded) := by
  rw [leavesBlank, holdsBlank, isHollow]
  cases node.framed? with
  | none => simp
  | some b => simp [Bool.or_assoc, Bool.or_comm (b.showsBlank padded)]

namespace Place

/-- Whether some place that is shown has a node in `q`. -/
def anyShown (q : Node → Bool) (places : List Place) : Bool :=
  places.any fun p => p.isShown && q p.node

variable {q : Node → Bool}

theorem anyShown_append (xs ys : List Place) :
    anyShown q (xs ++ ys) = (anyShown q xs || anyShown q ys) :=
  List.any_append

/-- What is inside of a node is not shown if the node hides it. -/
theorem anyShown_enclosing (node : Node) (inner : List Place) :
    anyShown q (node.enclosing inner) = (q node || (!node.hides && anyShown q inner)) := by
  have hinside : anyShown q (inner.map (inside node)) = (!node.hides && anyShown q inner) := by
    rw [anyShown, anyShown, List.any_map]
    induction inner with
    | nil => simp
    | cons p inner ih =>
      have hp : (p.inside node).node = p.node := rfl
      rw [List.any_cons, List.any_cons, ih, Function.comp_apply, isShown_inside, hp]
      cases node.hides <;> simp
  rw [Node.enclosing, ← List.singleton_append, anyShown_append, hinside]
  simp [anyShown, isShown]

end Place

/-! ### Indentation -/

/-- Whether lines at a level are indented. -/
def Layout.pads (layout : Layout) (level : Nat) : Bool :=
  0 < level * layout.tabWidth

theorem Layout.pads_zero (layout : Layout) : layout.pads 0 = false := by
  simp [pads]

theorem Layout.pads_succ (layout : Layout) (level : Nat) :
    layout.pads (level + 1) = decide (0 < layout.tabWidth) := by
  simp [pads]

/-- Lines are indented by nothing where they are not padded. -/
theorem Layout.indent_eq_empty_iff (layout : Layout) (level : Nat) :
    layout.indent level = "" ↔ layout.pads level = false := by
  rw [← String.toList_inj, indent, spaces, String.toList_ofList, pads, decide_eq_false_iff_not,
    Nat.not_lt, Nat.le_zero]
  exact List.replicate_eq_nil_iff ' '

theorem Layout.solid_indent_append (layout : Layout) (level : Nat) {s : String} (h : Solid s) :
    Solid (layout.indent level ++ s) :=
  h.append_left (layout.unbroken_indent level)

namespace Renderer

/-! ### Frames -/

namespace Frame

variable (layout : Layout) (level : Nat)

/-- A frame that has a line above is not empty. -/
theorem around_ne_empty {f : Frame} (h : f.above ≠ []) (inner : String) :
    f.around layout level inner ≠ "" := by
  obtain ⟨above, below⟩ := f
  cases above with
  | nil => exact absurd rfl h
  | cons line above =>
    unfold around
    rw [List.map_cons, List.cons_append, String.intercalate_cons_of_ne_nil (by simp)]
    simp

/-- A frame has the blank lines of its own lines and of what is inside. -/
theorem hasLineOf_around (f : Frame) (inner : String) :
    hasLineOf isSpace (f.around layout level inner) =
      (f.lines.any (fun line => hasLineOf isSpace line.2) || hasLineOf isSpace inner) := by
  have hplaced : ∀ ls : List (Nat × String),
      (ls.map (placed layout level)).any (hasLineOf isSpace) =
        ls.any fun line => hasLineOf isSpace line.2 := by
    intro ls
    rw [List.any_map]
    congr 1
    funext line
    exact Markup.hasLineOf_spaces_append _ line.2
  rw [around, Markup.hasLineOf_intercalate (by simp), List.any_append, List.any_cons, hplaced,
    hplaced, lines, List.any_append]
  ac_rfl

/-- A frame around some markup. The markup stands on a line also if it is empty. -/
theorem vacancy_around {f : Frame} (h : f.above ≠ []) {inner : String} {mute blank : Bool}
    (hinner : Vacancy inner mute blank) :
    Vacancy (f.around layout level inner) false
      (f.lines.any (fun line => hasLineOf isSpace line.2) || (mute || blank)) := by
  have hvacancy := Vacancy.of_ne_empty (around_ne_empty layout level h inner)
  rwa [hasLineOf_around, hinner.hasLineOf] at hvacancy

/-- A frame of visible lines brings no blank line. -/
theorem any_eq_false_of_solid {f : Frame} (h : ∀ line ∈ f.lines, Solid line.2) :
    (f.lines.any fun line => hasLineOf isSpace line.2) = false := by
  rw [List.any_eq_false]
  intro line hline
  rw [(h line hline).hasLineOf_isSpace]
  exact Bool.false_ne_true

/-- A frame is bounded if its first and its last line are visible. -/
theorem bounded_around {f : Frame} {first last : Nat × String} {above below : List (Nat × String)}
    (habove : f.above = first :: above) (hbelow : f.below = below ++ [last])
    (hfirst : Solid first.2) (hlast : Solid last.2) (inner : String) :
    Bounded (f.around layout level inner) := by
  have hbounded := Markup.bounded_intercalate (layout.solid_indent_append (level + first.1) hfirst)
    (layout.solid_indent_append (level + last.1) hlast)
    (above.map (placed layout level) ++ inner :: below.map (placed layout level))
  unfold around
  rw [habove, hbelow]
  simpa [placed] using hbounded

end Frame

theorem above_statementFrame_ne_nil (elseFollows : Bool) (head : Statement) :
    (statementFrame elseFollows head).above ≠ [] := by
  unfold statementFrame
  dsimp only
  split
  · simp
  · split <;> simp

/-- All lines around the block of code are visible, unless the block holds code. -/
theorem solid_statementFrame (elseFollows : Bool) {head : Statement} (h : Unbroken head.expression)
    (hverbatim : head.verbatim = false) :
    ∀ line ∈ (statementFrame elseFollows head).lines, Solid line.2 := by
  intro line hline
  refine (statementFrame_lines elseFollows h line hline).resolve_right fun hother => ?_
  rw [hverbatim] at hother
  exact Bool.false_ne_true hother.1

/-- Around code, only the first line of verbatim code can be blank. -/
theorem any_statementFrame (elseFollows : Bool) {head : Statement} (h : Unbroken head.expression) :
    ((statementFrame elseFollows head).lines.any fun line => hasLineOf isSpace line.2) =
      (head.verbatim &&
        (dropBackslash (trimLeadingSpaces head.expression)).toList.all isSpace) := by
  cases hverbatim : head.verbatim with
  | true =>
    have hexpression := unbroken_dropBackslash (unbroken_trimLeadingSpaces h)
    have hfirst : hasLineOf isSpace "<?php" = false := by decide
    have hlast : hasLineOf isSpace "?>" = false := by decide
    simp [statementFrame, hverbatim, Frame.lines, hfirst, hlast,
      Markup.hasLineOf_of_unbroken hexpression]
  | false => exact Frame.any_eq_false_of_solid (solid_statementFrame elseFollows h hverbatim)

/-- Code that no other branch follows is bounded by the lines of its frame. -/
theorem bounded_statementFrame {head : Statement} (h : Unbroken head.expression) (layout : Layout)
    (level : Nat) (inner : String) :
    Bounded ((statementFrame false head).around layout level inner) := by
  cases hverbatim : head.verbatim with
  | true =>
    have hframe : statementFrame false head =
        ⟨(0, "<?php") :: [(1, dropBackslash (trimLeadingSpaces head.expression))],
          [] ++ [(0, "?>")]⟩ := by
      simp [statementFrame, hverbatim]
    rw [hframe]
    exact Frame.bounded_around layout level rfl rfl (by decide) (by decide) inner
  | false =>
    obtain ⟨first, above, habove⟩ :=
      List.exists_cons_of_ne_nil (above_statementFrame_ne_nil false head)
    have hne : (statementFrame false head).below ≠ [] := by
      unfold statementFrame
      dsimp only
      rw [hverbatim, if_neg Bool.false_ne_true]
      split <;> simp
    obtain ⟨below, last, hbelow⟩ := (List.eq_nil_or_concat _).resolve_left hne
    rw [List.concat_eq_append] at hbelow
    have hsolid := solid_statementFrame false h hverbatim
    rw [Frame.lines, habove, hbelow] at hsolid
    exact Frame.bounded_around layout level habove hbelow (hsolid first (by simp))
      (hsolid last (by simp)) inner

/-- A comment is one line. -/
theorem unbroken_body {c : Comment} (h : (Node.comment c).Lined) : Unbroken c.body := by
  by_cases hbody : c.body = ""
  · rw [hbody]
    decide
  · exact (h hbody).unbroken

/-- All lines around the block of a comment are visible. -/
theorem solid_remarkFrame {c : Comment} (h : (Node.comment c).Lined) :
    ∀ line ∈ (remarkFrame c.toRemark).lines, Solid line.2 := by
  intro line hline
  rcases remarkFrame_lines (unbroken_body h) line hline with hsolid | ⟨hbody, rfl⟩
  · exact hsolid
  · exact h hbody

/-- Around the block of a tag, only the code and the text of the tag can be blank. -/
theorem any_elementFrame {head : Element} (h : head.Unbroken) (inlines : List String) :
    ((elementFrame head inlines).lines.any fun line => hasLineOf isSpace line.2) =
      inlines.any (hasLineOf isSpace) := by
  have hfirst : Solid (opening head ++ ">") :=
    (solid_opening h.name h.attributes).append_right (by decide)
  have hlast : Solid ("</" ++ head.name ++ ">") := .append_append (by decide) h.name (by decide)
  simp [elementFrame, Frame.lines, hfirst.hasLineOf_isSpace, hlast.hasLineOf_isSpace,
    Function.comp_def]

/-! ### Results -/

/-- What holds of a result, unless it is an error. -/
def Ensures {α : Type} (P : α → Prop) (x : Except RenderError α) : Prop :=
  ∀ a, x = .ok a → P a

section

variable {α β : Type} {P : α → Prop} {Q : β → Prop}

theorem ensures_ok {a : α} (h : P a) : Ensures P (.ok a) := by
  intro b hb
  obtain rfl := Except.ok.inj hb
  exact h

theorem ensures_error (e : RenderError) : Ensures P (.error e) := by
  intro a h
  cases h

/-- What holds of a result carries over to what is made of it. -/
theorem Ensures.bind {x : Except RenderError α} {f : α → Except RenderError β} (h : Ensures P x)
    (hf : ∀ a, P a → Ensures Q (f a)) : Ensures Q (x >>= f) := by
  cases x with
  | error e => exact ensures_error e
  | ok a => exact hf a (h a rfl)

theorem Ensures.and {P' : α → Prop} {x : Except RenderError α} (h : Ensures P x)
    (h' : Ensures P' x) : Ensures (fun a => P a ∧ P' a) x :=
  fun a ha => ⟨h a ha, h' a ha⟩

theorem Ensures.map {x : Except RenderError α} {f : α → β} (h : Ensures P x)
    (hf : ∀ a, P a → Q (f a)) : Ensures Q (x.map f) := by
  cases x with
  | error e => exact ensures_error e
  | ok a => exact ensures_ok (hf a (h a rfl))

end

/-! ### Texts -/

section

variable {r : Renderer} (hr : r.Unvisited)

include hr

/-- A text always has markup. It is empty for an empty text that is not indented, and it has a
blank line if the text has. -/
theorem Unvisited.exists_renderText (level : Nat) {t : Text} (h : (Node.text t).Lined) :
    ∃ s, r.renderText level t = .ok s ∧
      (s = "" ↔ (Node.text t).isMute (r.layout.pads level) = true) ∧
      hasLineOf isSpace s = t.hasBlankLine := by
  have hmute : (Node.text t).isMute (r.layout.pads level) = true ↔
      r.layout.indent level = "" ∧ (t.lines = [] ∨ t.lines = [""]) := by
    simp [Node.isMute, Text.isVoid, Layout.indent_eq_empty_iff]
  rw [hmute]
  by_cases hlines : t.lines = []
  · -- A text without lines is rendered as its indentation.
    refine ⟨_, hr.renderText_nil level hlines, by simp [hlines], ?_⟩
    have hspaces := Markup.hasLineOf_spaces_append (level * r.layout.tabWidth) ""
    rw [String.append_empty] at hspaces
    simp only [Text.hasBlankLine, hlines, decide_true, Bool.true_or]
    exact hspaces.trans (by decide)
  · refine ⟨_, hr.renderText_eq level hlines, ?_, ?_⟩
    · rw [Markup.interpolate_eq_empty_iff]
      rcases hcases : t.lines with _ | ⟨line, _ | ⟨next, others⟩⟩
      · exact absurd hcases hlines
      · simp
      · simp
    · rw [Markup.hasLineOf_interpolate (by decide),
        Markup.hasLineOf_intercalate (by simpa using hlines), List.any_map]
      simp only [Text.hasBlankLine, hlines, decide_false, Bool.false_or]
      rw [Bool.eq_iff_iff, List.any_eq_true, List.any_eq_true]
      refine exists_congr fun line => and_congr_right fun hline => ?_
      rw [Function.comp_apply, Layout.indent, Markup.hasLineOf_spaces_append,
        Markup.hasLineOf_of_unbroken (h line hline)]

/-- Above a block, the text of a tag is made of visible lines. -/
theorem Unvisited.inlineText_of_solid {text : Option Text}
    (h : ∀ t ∈ text, ∀ line ∈ t.lines, Solid line) :
    Ensures (fun inlines => inlines.any (hasLineOf isSpace) = false) (r.inlineText text) := by
  cases text with
  | none => exact ensures_ok rfl
  | some t =>
    show Ensures _ (if t.lines = [] then .ok [] else (r.renderText 0 t).map ([·]))
    split
    · exact ensures_ok rfl
    · next hlines =>
      have hsolid := h t rfl
      obtain ⟨s, hs, -, hblank⟩ :=
        hr.exists_renderText 0 (t := t) fun line hline => (hsolid line hline).unbroken
      have hvisible : t.hasBlankLine = false := by
        simp only [Text.hasBlankLine, hlines, decide_false, Bool.false_or, List.any_eq_false]
        intro line hline
        rw [(hsolid line hline).visible]
        exact Bool.false_ne_true
      rw [hs]
      exact ensures_ok (by simp [hblank, hvisible])

/-- Two lines in front of a tag are the end of the line before and the start of the line of the
tag. -/
theorem Unvisited.inlineText_of_length_le {text : Option Text}
    (h : ∀ t ∈ text, t.lines.length ≤ 2 ∧ (Node.text t).Lined) :
    Ensures (fun inlines => ∀ back, scanLines isSpace false
      ((String.join inlines).toList ++ '<' :: back) = scanLines isSpace false back)
      (r.inlineText text) := by
  have hback : ∀ soFar back, scanLines isSpace soFar ('<' :: back) = scanLines isSpace false back :=
    fun soFar back => Markup.scanLines_cons_of_not (by decide) (by decide) soFar
  cases text with
  | none => exact ensures_ok (hback false)
  | some t =>
    show Ensures _ (if t.lines = [] then .ok [] else (r.renderText 0 t).map ([·]))
    split
    · exact ensures_ok (hback false)
    · next hlines =>
      obtain ⟨hlength, hlined⟩ := h t rfl
      rw [hr.renderText_eq 0 hlines]
      refine ensures_ok fun back => ?_
      have hindent : r.layout.indent 0 = "" := (r.layout.indent_eq_empty_iff 0).2 r.layout.pads_zero
      have hjoin : ∀ s : String, String.join [s] = s := by simp
      rw [hjoin, Markup.interpolate, String.toList_ofList,
        Markup.scanLines_interpolateChars (by decide), hindent]
      rcases hcases : t.lines with _ | ⟨line, _ | ⟨next, _ | ⟨third, others⟩⟩⟩
      · exact absurd hcases hlines
      · have hline : Unbroken line := hlined line (by simp [hcases])
        simp only [List.map_cons, List.map_nil, String.empty_append, String.intercalate_singleton]
        rw [Markup.scanLines_append_of_not_mem hline, hback]
      · have hline : Unbroken line := hlined line (by simp [hcases])
        have hnext : Unbroken next := hlined next (by simp [hcases])
        have hlist : ("\n".intercalate (["" ++ line, "" ++ next])).toList ++ '<' :: back =
            line.toList ++ '\n' :: (next.toList ++ '<' :: back) := by
          simp
        show scanLines isSpace false (("\n".intercalate (["" ++ line, "" ++ next])).toList ++ _) = _
        rw [hlist, Markup.scanLines_append_of_not_mem hline, scanLines, if_pos rfl,
          Markup.scanLines_append_of_not_mem hnext, hback]
        rfl
      · rw [hcases] at hlength
        simp at hlength

end

/-! ### Nodes -/

section

variable {r : Renderer}

/-- Whether some place that is shown leaves a blank line of its own. -/
def gapsAt (r : Renderer) (places : List Place) : Bool :=
  Place.anyShown (Node.leavesBlank (0 < r.layout.tabWidth)) places

theorem gapsAt_append (xs ys : List Place) : r.gapsAt (xs ++ ys) = (r.gapsAt xs || r.gapsAt ys) :=
  Place.anyShown_append xs ys

theorem gapsAt_enclosing (node : Node) (inner : List Place) :
    r.gapsAt (node.enclosing inner) =
      (node.leavesBlank (0 < r.layout.tabWidth) || (!node.hides && r.gapsAt inner)) :=
  Place.anyShown_enclosing node inner

theorem gapsAt_text (t : Text) : r.gapsAt ((Node.text t).enclosing []) = false := by
  rw [gapsAt_enclosing]
  rfl

/-- The text of a tag leaves no gap, so those inside it are in its code and in its block. -/
theorem gapsAt_inner_tag (e : Element) (text : Option Text) (code : Option Code)
    (children : Block) :
    r.gapsAt (Tag.mk e text code children).inner =
      (r.gapsAt (code.elim [] fun code => (Node.code code).enclosing code.inner) ||
        r.gapsAt children.places) := by
  have htext : r.gapsAt (text.toList.map fun text => { node := .text text }) = false := by
    cases text <;> rfl
  cases code <;> rw [Tag.inner, gapsAt_append, gapsAt_append, htext, Bool.or_false] <;> rfl

theorem gapsAt_places_of_empty {b : Block} (h : b.children = []) : r.gapsAt b.places = false := by
  obtain ⟨line, children⟩ := b
  obtain rfl : children = [] := h
  rfl

/-- The parts of a tag are lined if the tag and all nodes inside it are. -/
theorem lined_tag_cases {e : Element} {text : Option Text} {code : Option Code} {children : Block}
    (h : ∀ n ∈ (Node.tag ⟨e, text, code, children⟩).preorder, n.Lined) :
    (Node.tag ⟨e, text, code, children⟩).Lined ∧
      (∀ c ∈ code, ∀ n ∈ (Node.code c).preorder, n.Lined) ∧
      (∀ t ∈ text, (Node.text t).Lined) ∧ ∀ n ∈ Place.nodes children.places, n.Lined := by
  have hinner : ∀ n ∈ Place.nodes (Tag.mk e text code children).inner, n.Lined :=
    fun n hn => h n (.tail _ hn)
  rw [Tag.nodes_inner] at hinner
  obtain ⟨hfront, hchildren⟩ := List.forall_mem_append.1 hinner
  obtain ⟨hcode, htext⟩ := List.forall_mem_append.1 hfront
  refine ⟨h _ List.mem_cons_self, fun c hc n hn => hcode n ?_, fun t ht => htext _ ?_, hchildren⟩
  · exact List.mem_flatMap.2 ⟨c, Option.mem_toList.2 hc, hn⟩
  · exact List.mem_map.2 ⟨t, Option.mem_toList.2 ht, rfl⟩

/-- On the line of a tag stands its code and then its text. -/
theorem Ensures.renderInlines {t : Tag} {P Q : List String → Prop}
    (hcode : Ensures P (r.inlineCode t.code)) (htext : Ensures Q (r.inlineText t.text)) :
    Ensures (fun inlines => ∃ codes texts, inlines = codes ++ texts ∧ P codes ∧ Q texts)
      (r.renderInlines t) :=
  hcode.bind fun codes hcodes => htext.bind fun texts htexts =>
    ensures_ok ⟨codes, texts, rfl, hcodes, htexts⟩

/-- A tag shows the blank lines of its code and of its block. -/
theorem Unextended.vacancy_tag (hr : r.Unextended) (level : Nat) {t : Tag}
    (hlined : (Node.tag t).Lined) (htext : ∀ text ∈ t.text, (Node.text text).Lined)
    {inCode inBlock : Bool}
    (hcode : Ensures (fun codes => (∀ s ∈ codes, Bounded s) ∧
      codes.any (hasLineOf isSpace) = inCode) (r.inlineCode t.code))
    (hblock : Ensures (fun s => Vacancy s (t.children.isMute (0 < r.layout.tabWidth))
      (t.children.showsBlank (0 < r.layout.tabWidth) || inBlock))
      (r.renderBlock (level + 1) t.children))
    (hempty : t.children.children = [] → inBlock = false) :
    Ensures (fun s => Vacancy s false ((Node.tag t).leavesBlank (0 < r.layout.tabWidth) ||
      (!(Node.tag t).hides && (inCode || inBlock)))) (r.renderTag level t) := by
  obtain ⟨hunbroken, hinlined⟩ := hlined
  have hopening := solid_opening hunbroken.name hunbroken.attributes
  rw [hr.unvisited.renderTag_around, Node.leavesBlank_eq]
  by_cases hname : t.name ∈ selfClosingTags
  · -- Nothing inside is shown.
    rw [if_pos hname]
    refine ensures_ok ?_
    simp only [Node.bringsBlank, Node.framed?, Node.hides, hname, true_or, if_true,
      decide_true, Option.any_none, Bool.not_true, Bool.false_and, Bool.or_false]
    exact .of_solid (r.layout.solid_indent_append level (hopening.append_right (by decide)))
  rw [if_neg hname]
  by_cases hchildren : t.children.children = []
  · -- Both ends of the tag are on the lines of its text and code, and only code can be blank.
    have htexts := hr.unvisited.inlineText_of_length_le fun text ht =>
      ⟨(hinlined text ht).length_le, htext text ht⟩
    refine (Ensures.renderInlines hcode htexts).bind fun inlines hinlines => ?_
    obtain ⟨codes, texts, rfl, ⟨hbounded, hcodes⟩, htexts⟩ := hinlines
    rw [if_pos (by simp [hchildren])]
    refine ensures_ok ?_
    simp only [Node.bringsBlank, Node.framed?, Node.hides, hname, hchildren, or_true, if_true,
      decide_false, Option.any_none, Bool.not_false, Bool.true_and, Bool.or_false, Bool.false_or,
      hempty hchildren]
    have hfront := r.layout.solid_indent_append level (hopening.append_right (b := ">") (by decide))
    have hback : Unbroken ("/" ++ t.name ++ ">") :=
      Markup.unbroken_append.2 ⟨Markup.unbroken_append.2 ⟨by decide, hunbroken.name⟩, by decide⟩
    have hline := Markup.hasLineOf_inline hfront hbounded htexts hback
    have hpieces : r.layout.indent level ++ (opening t.toElement ++ ">" ++
        String.join (codes ++ texts) ++ "</" ++ t.name ++ ">") =
        r.layout.indent level ++ (opening t.toElement ++ ">") ++ String.join (codes ++ texts) ++
          ("<" ++ ("/" ++ t.name ++ ">")) := by
      rw [show "</" = "<" ++ "/" from rfl]
      simp only [String.append_assoc]
    have hvacancy := Vacancy.of_ne_empty (s := r.layout.indent level ++
      (opening t.toElement ++ ">") ++ String.join (codes ++ texts) ++
        ("<" ++ ("/" ++ t.name ++ ">"))) (by simp)
    rwa [hline, hcodes, ← hpieces] at hvacancy
  · -- The text and the code stand on lines of their own, above the block.
    have htexts := hr.unvisited.inlineText_of_solid fun text ht =>
      (hinlined text ht).solid hchildren
    refine (Ensures.renderInlines hcode htexts).bind fun inlines hinlines => ?_
    obtain ⟨codes, texts, rfl, ⟨-, hcodes⟩, htexts⟩ := hinlines
    rw [if_neg (by simpa using hchildren)]
    refine hblock.map fun s hs => ?_
    have hframe := Frame.vacancy_around r.layout level
      (f := elementFrame t.toElement (codes ++ texts)) (List.cons_ne_nil _ _) hs
    rw [any_elementFrame hunbroken, List.any_append, hcodes, htexts] at hframe
    simp only [Node.bringsBlank, Node.framed?, Node.hides, hname, hchildren, or_self, if_false,
      decide_false, Option.any_some, Bool.not_false, Bool.true_and, Bool.false_or]
    have hbool : ∀ inCode mute shows inBlock : Bool,
        (inCode || false || (mute || (shows || inBlock))) =
          (mute || shows || (inCode || inBlock)) := by
      decide
    rwa [hbool] at hframe

/-- Code on the line of a tag is bounded. -/
theorem Unextended.bounded_renderCode (hr : r.Unextended) (level : Nat) {c : Code}
    (h : Unbroken c.expression) : Ensures Bounded (r.renderCode level false c) := by
  obtain ⟨head, block⟩ := c
  cases block with
  | none =>
    rw [hr.unvisited.renderCode_none]
    exact ensures_ok (r.layout.solid_indent_append level (solid_directive h)).bounded
  | some block =>
    rw [hr.unvisited.renderCode_around]
    exact Ensures.map (P := fun _ => True) (fun _ _ => trivial) fun inner _ =>
      bounded_statementFrame h r.layout level inner

/-- The declarations of document types are lines of text. -/
theorem solid_declaration : ∀ entry ∈ Doctype.declarations, Solid entry.2 := by
  simp only [Doctype.declarations, List.forall_mem_cons, List.not_mem_nil, false_implies,
    implies_true, and_true]
  refine ⟨?_, ?_, ?_, ?_, ?_, ?_, ?_, ?_, ?_, ?_⟩
  iterate 4 exact Markup.solid_ofList (by decide) (by decide)
  all_goals
    exact (Markup.solid_ofList (by decide) (by decide)).append_right
      (Markup.unbroken_ofList.2 (by decide))

/-- A document type is one visible line. -/
theorem Unvisited.vacancy_renderDoctype (hr : r.Unvisited) (d : Doctype) :
    Ensures (fun s => Vacancy s false false) (r.renderDoctype d) := by
  rw [renderDoctype, hr.visit]
  simp only [bind, Except.bind]
  cases hfound : Doctype.declaration? d.version with
  | none => exact ensures_error _
  | some declaration =>
    obtain ⟨before, after, hentries, -⟩ := List.lookup_eq_some_iff.1 hfound
    exact ensures_ok (.of_solid
      (solid_declaration _ (hentries ▸ List.mem_append_right before List.mem_cons_self)))

end

mutual

/-- Which nodes have no markup, and which have markup with a blank line. By induction on the
document: a node has the blank lines that it shows itself and those of the places inside it. -/
theorem Unextended.vacancy_renderNode {r : Renderer} (hr : r.Unextended) (level : Nat)
    (elseFollows : Bool) : (node : Node) → (∀ n ∈ node.preorder, n.Lined) →
      Ensures (fun s => Vacancy s (node.isMute (r.layout.pads level))
        (node.showsBlank (r.layout.pads level) || r.gapsAt (node.enclosing node.inner)))
        (r.renderNode level elseFollows node)
  | .group block => fun h => (h _ List.mem_cons_self).elim
  | .tag tag => fun h => by
    rw [renderNode_tag]
    exact hr.vacancy_renderTag level tag h
  | .text text => fun h => by
    obtain ⟨s, hs, hempty, hblank⟩ := hr.unvisited.exists_renderText level (h _ List.mem_cons_self)
    rw [renderNode_text, hs]
    refine ensures_ok ⟨hempty, ?_⟩
    rw [Node.inner, gapsAt_text, Bool.or_false, Node.showsBlank, Markup.hasBlankLine, hblank,
      Bool.and_comm]
    cases hmute : (Node.text text).isMute (r.layout.pads level) <;> simp [hempty, hmute]
  | .code code => hr.vacancy_renderCode level elseFollows code
  | .comment comment => fun h => by
    rw [renderNode_comment]
    exact hr.vacancy_renderComment level comment h
  | .doctype doctype => fun _ => by
    rw [renderNode_doctype]
    exact hr.unvisited.vacancy_renderDoctype doctype
  | .filter filter => fun h => by
    rw [renderNode_filter]
    exact hr.vacancy_renderFilter level filter h

theorem Unextended.vacancy_renderTag {r : Renderer} (hr : r.Unextended) (level : Nat) :
    (tag : Tag) → (∀ n ∈ (Node.tag tag).preorder, n.Lined) →
      Ensures (fun s => Vacancy s false (r.gapsAt ((Node.tag tag).enclosing tag.inner)))
        (r.renderTag level tag)
  | ⟨element, text, none, children⟩ => fun h => by
    obtain ⟨htag, -, htext, hchildren⟩ := lined_tag_cases h
    have hblock := hr.vacancy_renderBlock (level + 1) children hchildren
    rw [r.layout.pads_succ] at hblock
    rw [gapsAt_enclosing, gapsAt_inner_tag]
    exact hr.vacancy_tag level htag htext (ensures_ok ⟨List.forall_mem_nil _, rfl⟩) hblock
      gapsAt_places_of_empty
  | ⟨element, text, some code, children⟩ => fun h => by
    obtain ⟨htag, hcode, htext, hchildren⟩ := lined_tag_cases h
    have hblock := hr.vacancy_renderBlock (level + 1) children hchildren
    rw [r.layout.pads_succ] at hblock
    have hvacancy := hr.vacancy_renderCode 0 false code (hcode code rfl)
    -- Code on the line of a tag is not indented, and no branch follows it.
    have hbounded := hr.bounded_renderCode 0 (c := code) (hcode code rfl _ List.mem_cons_self)
    rw [gapsAt_enclosing, gapsAt_inner_tag]
    refine hr.vacancy_tag level htag htext ?_ hblock gapsAt_places_of_empty
    refine (hbounded.and hvacancy).map fun s hs => ⟨List.forall_mem_singleton.2 hs.1, ?_⟩
    simpa using hs.2.hasLineOf

theorem Unextended.vacancy_renderCode {r : Renderer} (hr : r.Unextended) (level : Nat)
    (elseFollows : Bool) : (code : Code) → (∀ n ∈ (Node.code code).preorder, n.Lined) →
      Ensures (fun s => Vacancy s false (r.gapsAt ((Node.code code).enclosing code.inner)))
        (r.renderCode level elseFollows code)
  | ⟨head, none⟩ => fun h => by
    have hexpression : Unbroken head.expression := h _ List.mem_cons_self
    rw [hr.unvisited.renderCode_none, gapsAt_enclosing, Node.leavesBlank_eq]
    exact ensures_ok (.of_solid (r.layout.solid_indent_append level (solid_directive hexpression)))
  | ⟨head, some block⟩ => fun h => by
    have hexpression : Unbroken head.expression := h _ List.mem_cons_self
    have hblock := hr.vacancy_renderBlock (level + 1) block fun n hn => h n (.tail _ hn)
    rw [r.layout.pads_succ] at hblock
    rw [hr.unvisited.renderCode_around, gapsAt_enclosing, Node.leavesBlank_eq]
    refine hblock.map fun s hs => ?_
    have hframe := Frame.vacancy_around r.layout level
      (above_statementFrame_ne_nil elseFollows head) hs
    rw [any_statementFrame elseFollows hexpression] at hframe
    simpa [Node.bringsBlank, Node.framed?, Node.hides, Code.inner, Bool.or_assoc] using hframe

theorem Unextended.vacancy_renderComment {r : Renderer} (hr : r.Unextended) (level : Nat) :
    (comment : Comment) → (∀ n ∈ (Node.comment comment).preorder, n.Lined) →
      Ensures (fun s => Vacancy s (Node.isMute (r.layout.pads level) (.comment comment))
        (r.gapsAt ((Node.comment comment).enclosing comment.inner))) (r.renderComment level comment)
  | ⟨remark, none⟩ => fun h => by
    rw [gapsAt_enclosing, Node.leavesBlank_eq]
    cases hbuffered : remark.buffered with
    | true =>
      have hbody := unbroken_body (h _ List.mem_cons_self)
      rw [hr.unvisited.renderComment_none level hbuffered]
      have hvacancy := Vacancy.of_solid (r.layout.solid_indent_append level (solid_remark hbody))
      refine ensures_ok ?_
      simpa [Node.isMute, Node.bringsBlank, Node.framed?, hbuffered, Comment.inner, gapsAt,
        Place.anyShown] using hvacancy
    | false =>
      rw [hr.unvisited.renderComment_hidden level hbuffered]
      refine ensures_ok ?_
      simpa [Node.isMute, Node.bringsBlank, Node.framed?, Node.hides, hbuffered] using Vacancy.empty
  | ⟨remark, some block⟩ => fun h => by
    rw [gapsAt_enclosing, Node.leavesBlank_eq]
    cases hbuffered : remark.buffered with
    | true =>
      have hblock := hr.vacancy_renderBlock (level + 1) block fun n hn => h n (.tail _ hn)
      rw [r.layout.pads_succ] at hblock
      rw [hr.unvisited.renderComment_around level hbuffered]
      refine hblock.map fun s hs => ?_
      have habove : (remarkFrame remark).above ≠ [] := by
        unfold remarkFrame
        split <;> simp
      have hframe := Frame.vacancy_around r.layout level habove hs
      rw [Frame.any_eq_false_of_solid (solid_remarkFrame (h _ List.mem_cons_self))] at hframe
      simpa [Node.isMute, Node.bringsBlank, Node.framed?, Node.hides, hbuffered, Comment.inner,
        Bool.or_assoc] using hframe
    | false =>
      rw [hr.unvisited.renderComment_hidden level hbuffered]
      refine ensures_ok ?_
      simpa [Node.isMute, Node.bringsBlank, Node.framed?, Node.hides, hbuffered] using Vacancy.empty

theorem Unextended.vacancy_renderFilter {r : Renderer} (hr : r.Unextended) (level : Nat) :
    (filter : Filter) → (∀ n ∈ (Node.filter filter).preorder, n.Lined) →
      Ensures (fun s => Vacancy s false (r.gapsAt ((Node.filter filter).enclosing filter.inner)))
        (r.renderFilter level filter)
  | ⟨directive, body⟩ => fun h => by
    -- Only texts are under filters, and the frame has a line for a text also if it is empty.
    obtain ⟨t, ht⟩ := h _ List.mem_cons_self
    obtain rfl : body = .text t := ht
    rw [gapsAt_enclosing, Node.leavesBlank_eq]
    obtain hmissing | ⟨f, habove, hf, haround⟩ := hr.renderFilter_cases directive
    · rw [hmissing]
      exact ensures_error _
    · have htext : (Node.text t).Lined := h _ (.tail _ List.mem_cons_self)
      obtain ⟨s, hs, hempty, hblank⟩ := hr.unvisited.exists_renderText (level + 1) htext
      rw [haround, renderNode_text, hs]
      have hframe := Vacancy.of_ne_empty (Frame.around_ne_empty r.layout level habove s)
      rw [Frame.hasLineOf_around, Frame.any_eq_false_of_solid hf, hblank] at hframe
      refine ensures_ok ?_
      simpa [Node.bringsBlank, Node.framed?, Node.hides, Filter.inner, Node.inner, gapsAt_text]
        using hframe

theorem Unextended.vacancy_renderBlock {r : Renderer} (hr : r.Unextended) (level : Nat) :
    (block : Block) → (∀ n ∈ Place.nodes block.places, n.Lined) →
      Ensures (fun s => Vacancy s (block.isMute (r.layout.pads level))
        (block.showsBlank (r.layout.pads level) || r.gapsAt block.places))
        (r.renderBlock level block)
  | ⟨line, children⟩ => fun h => by
    rw [renderBlock_eq]
    exact (hr.vacancy_renderAhead level false children h).map fun parts hparts => hparts

theorem Unextended.vacancy_renderAhead {r : Renderer} (hr : r.Unextended) (level : Nat)
    (elseFollows : Bool) :
    (nodes : List Node) → (∀ n ∈ Place.nodes (Node.placesOf nodes), n.Lined) →
      Ensures (fun parts => Vacancy (Markup.joinLines parts)
        (nodes.all (·.isMute (r.layout.pads level)))
        (nodes.any (·.showsBlank (r.layout.pads level)) || r.gapsAt (Node.placesOf nodes)))
        (r.renderAhead level elseFollows nodes)
  | [] => fun _ => ensures_ok .empty
  | node :: nodes => fun h => by
    rw [Node.placesOf, Place.nodes_append, Place.nodes_enclosing] at h
    obtain ⟨hnode, hnodes⟩ := List.forall_mem_append.1 h
    rw [renderAhead]
    refine (hr.vacancy_renderNode level _ node hnode).bind fun first hfirst => ?_
    refine (hr.vacancy_renderAhead level elseFollows nodes hnodes).bind fun others hothers =>
      ensures_ok ?_
    have hcons := hfirst.joinLines_cons hothers
    have hbool : ∀ a b c d : Bool, (a || b || (c || d)) = (a || c || (b || d)) := by decide
    rw [hbool, ← gapsAt_append] at hcons
    exact hcons

end

end Renderer

/-! ### Engines -/

namespace Engine

open Renderer

/-- Short names are expanded while rendering. It is the same to expand them beforehand, and then no
visitor is left. -/
theorem standard_render_eq {layout : Layout} {e : Engine} (he : standard layout = .ok e) :
    ∃ r : Renderer, r.Unextended ∧ r.layout = layout ∧
      ∀ root, e.renderer.render root = r.render (root.rewrite .autotags) := by
  obtain ⟨hlayout, hvisitors, hfilters⟩ := standard_renderer he
  have hrevises : e.renderer.Revises .autotags :=
    { others := fun kind hkind _ => by rw [hvisitors, if_neg hkind]
      tag := fun t => by
        rw [visit, hvisitors, if_pos rfl]
        rfl }
  have hcodes : ∀ codes, e.renderer.RevisesCodes .autotags codes := by
    intro codes c _
    obtain ⟨statement, block⟩ := c
    refine visit_of_no_visitors ?_ Visitor.code _
    rw [hvisitors, if_neg (by decide)]
  refine ⟨e.renderer.bare, ⟨e.renderer.unvisited_bare, fun entry hentry => ?_⟩, hlayout,
    fun root => ?_⟩
  · exact hfilters ▸ hentry
  · exact hrevises.renderBlock_rewrite 0 root (hcodes _) (settled_autotags _)

/-- The markup of a template has a line that is empty or made of spaces if and only if there is one
of three reasons: a text among the outermost nodes is blank; a node that is shown has blank text
or blank code of its own or in its block; or a node that is shown puts a frame around a block
without markup. Self-closing tags and hidden comments do not show what is inside them. -/
theorem blank_line_iff_hollow_or_blank {layout : Layout} {e : Engine} {source markup : String}
    (he : standard layout = .ok e) (hmarkup : e.render source = .ok markup) :
    ∃ root, parse layout source = .ok root ∧
      let document := root.rewrite .autotags
      let padded := decide (0 < layout.tabWidth)
      ((markup ≠ "" ∧ ∃ line ∈ Markup.lines markup, ∀ c ∈ line, c = ' ') ↔
        document.showsBlank false = true ∨
        (∃ p ∈ document.places, p.isShown = true ∧ p.node.holdsBlank padded = true) ∨
        ∃ p ∈ document.places, p.isShown = true ∧ p.node.isHollow padded = true) := by
  obtain ⟨r, hr, hlayout, hrender⟩ := standard_render_eq he
  obtain ⟨root, hroot, hmarkup⟩ := render_eq_ok_iff.1 hmarkup
  rw [(standard_renderer he).1] at hroot
  refine ⟨root, hroot, ?_⟩
  rw [hrender] at hmarkup
  have hvacancy := hr.vacancy_renderBlock 0 _ (lined_autotags_of_parse hroot) markup hmarkup
  rw [← Markup.hasBlankLine_iff, hvacancy.hasBlankLine, r.layout.pads_zero, gapsAt, hlayout,
    Bool.or_eq_true, Place.anyShown, List.any_eq_true]
  simp only [Node.leavesBlank, Bool.and_eq_true, Bool.or_eq_true, and_or_left, exists_or]

/-- A list with an item that holds a hidden comment and nothing else. No text and no code is blank,
so the empty line in the markup comes from a node that is hollow. -/
theorem blank_line_iff_hollow_or_blank_list :
    let source := "ul\n  li\n    / note\n  li x"
    let markup := "<ul>\n  <li>\n\n  </li>\n  <li>x</li>\n</ul>"
    ∃ e root, standard {} = .ok e ∧ e.render source = .ok markup ∧ parse {} source = .ok root ∧
      let document := root.rewrite .autotags
      document.showsBlank false = false ∧
      Place.anyShown (Node.holdsBlank true) document.places = false ∧
      ∃ p ∈ document.places, p.isShown = true ∧ p.node.isHollow true = true := by
  intro source markup
  let e := (standard {}).toOption.getD (plain {})
  have he : standard {} = .ok e := rfl
  have hrender : e.render source = .ok markup := render_of_attempt 6 (by decide +kernel)
  obtain ⟨root, hroot, hiff⟩ := blank_line_iff_hollow_or_blank he hrender
  have hblank : markup ≠ "" ∧ ∃ line ∈ Markup.lines markup, ∀ c ∈ line, c = ' ' :=
    Markup.hasBlankLine_iff.1 (by decide +kernel)
  have hothers : (parse {} source).map (fun root =>
      ((root.rewrite .autotags).showsBlank false,
        Place.anyShown (Node.holdsBlank true) (root.rewrite .autotags).places)) =
      .ok (false, false) := by
    decide +kernel
  rw [hroot] at hothers
  obtain ⟨houter, hheld⟩ := Prod.mk.inj (Except.ok.inj hothers)
  refine ⟨e, root, he, hrender, hroot, houter, hheld, ?_⟩
  rcases hiff.1 hblank with hshows | ⟨p, hp, hshown, hholds⟩ | hhollow
  · rw [houter] at hshows
    cases hshows
  · have hany : Place.anyShown (Node.holdsBlank true) (root.rewrite .autotags).places = true :=
      List.any_eq_true.2 ⟨p, hp, Bool.and_eq_true_iff.2 ⟨hshown, hholds⟩⟩
    rw [hheld] at hany
    cases hany
  · exact hhollow

/-- A hidden comment has no markup, but the tag around it has a line for it. -/
theorem hidden_comment_leaves_blank_line :
    ∃ e, standard {} = .ok e ∧ e.render "p\n  / note" = .ok "<p>\n\n</p>" ∧
      [] ∈ Markup.lines "<p>\n\n</p>" := by
  let e := (standard {}).toOption.getD (plain {})
  have hrender : e.render "p\n  / note" = .ok "<p>\n\n</p>" :=
    render_of_attempt 4 (by decide +kernel)
  exact ⟨e, rfl, hrender, by decide +kernel⟩

end Engine

end Offside
