import Offside.Proofs.Markup.Lines

/-!
# Indentation

A block that is rendered one level deeper has the same lines, further to the right
(`Renderer.nesting_shifts_markup`). This is what `Markup.shift` does to a text: it leaves empty
lines empty, as the renderer does where nothing stands between two lines of a frame.

Some blocks do more than that and are not `Movable`. A document type is never indented. Code and
text on the line of a tag are rendered as if they stood at the outermost level, so only their
first line gets the indentation. And an empty line of text is indented with the others, except
at the outermost level, where there is no indentation that could be seen.
-/

set_option autoImplicit false

namespace Offside

open Character

namespace Markup

variable {width : Nat} {s a b : String}

/-! ### Moving lines to the right -/

/-- Moves the lines of a text to the right. Empty lines stay empty. -/
def shift (width : Nat) (s : String) : String :=
  "\n".intercalate ((lines s).map fun line =>
    if line = [] then "" else spaces width ++ String.ofList line)

theorem shift_append_break (a b : String) :
    shift width (a ++ "\n" ++ b) = shift width a ++ "\n" ++ shift width b := by
  rw [shift, lines_append_break, List.map_append]
  have hne : ∀ s, lines s ≠ [] := fun s => List.splitOn_ne_nil '\n' s.toList
  exact String.intercalate_append_of_ne_nil (mt List.map_eq_nil_iff.1 (hne a))
    (mt List.map_eq_nil_iff.1 (hne b))

theorem shift_of_unbroken (h : Unbroken s) :
    shift width s = if s = "" then "" else spaces width ++ s := by
  simp [shift, lines_of_unbroken h]

theorem shift_empty : shift width "" = "" := by
  simp [shift_of_unbroken (s := "") (by decide)]

theorem shift_eq_empty_iff : shift width s = "" ↔ s = "" := by
  constructor
  · intro h
    by_cases hs : Unbroken s
    · rw [shift_of_unbroken hs] at h
      by_contra hne
      simp [hne] at h
    · obtain ⟨a, b, rfl, -⟩ := exists_break hs
      rw [shift_append_break] at h
      simp at h
  · rintro rfl
    exact shift_empty

theorem shift_intercalate {parts : List String} (h : parts ≠ []) :
    shift width ("\n".intercalate parts) = "\n".intercalate (parts.map (shift width)) := by
  induction parts with
  | nil => exact absurd rfl h
  | cons first others ih =>
    cases others with
    | nil => simp
    | cons second others =>
      have hothers : second :: others ≠ [] := List.cons_ne_nil _ _
      rw [String.intercalate_cons_of_ne_nil hothers, shift_append_break, ih hothers]
      exact (String.intercalate_cons_of_ne_nil (mt List.map_eq_nil_iff.1 hothers)).symm

theorem shift_joinLines (parts : List String) :
    shift width (joinLines parts) = joinLines (parts.map (shift width)) := by
  have hfilter : (parts.map (shift width)).filter (· ≠ "") =
      (parts.filter (· ≠ "")).map (shift width) := by
    rw [List.filter_map]
    congr 2
    funext part
    simp [shift_eq_empty_iff]
  rw [joinLines, joinLines, hfilter]
  by_cases hparts : parts.filter (· ≠ "") = []
  · rw [hparts]
    exact shift_empty
  · exact shift_intercalate hparts

/-! ### Texts -/

/-- A line break with spaces behind it. -/
def padBreak (width : Nat) (c : Char) : List Char :=
  if c = '\n' then '\n' :: List.replicate width ' ' else [c]

theorem padBreak_of_ne {c : Char} (h : c ≠ '\n') : padBreak width c = [c] := by
  rw [padBreak, if_neg h]

theorem keepsMarks_padBreak (width : Nat) : Segment.KeepsMarks (padBreak width) where
  mark := by
    intro c hc
    refine padBreak_of_ne ?_
    rintro rfl
    exact absurd hc (by decide)
  only := by
    intro c hc d hd
    unfold padBreak at hd
    split at hd
    · -- Neither the line break nor a space is a mark.
      rcases List.mem_cons.1 hd with rfl | hspace
      · exact absurd hc (by decide)
      · rw [List.eq_of_mem_replicate hspace] at hc
        exact absurd hc (by decide)
    · exact List.mem_singleton.1 hd
  ne_nil := by
    intro d
    unfold padBreak
    split <;> simp

theorem flatMap_padBreak {cs : List Char} (h : '\n' ∉ cs) : cs.flatMap (padBreak width) = cs := by
  induction cs with
  | nil => rfl
  | cons c cs ih =>
    have hc : c ≠ '\n' := fun heq => h (heq ▸ List.mem_cons_self)
    rw [List.flatMap_cons, padBreak_of_ne hc, ih fun hmem => h (List.mem_cons_of_mem c hmem)]
    rfl

/-- Interpolations are found in the same places if the line breaks of a text are padded. -/
theorem interpolateChars_padBreak (width : Nat) (cs : List Char) :
    interpolateChars false (cs.flatMap (padBreak width)) =
      (interpolateChars false cs).flatMap (padBreak width) := by
  obtain ⟨segments, hmet, rfl⟩ := Segment.exists_spells cs
  have hkeeps := keepsMarks_padBreak width
  rw [← hkeeps.flatMap_written_map, interpolateChars_written (hmet.flatMap hkeeps),
    interpolateChars_written hmet, List.flatMap_map, List.flatMap_assoc]
  congr 1
  funext segment
  match segment with
  | .literal text => rfl
  | .span (.live expression) =>
    show "<?= ".toList ++ expression.flatMap (padBreak width) ++ " ?>".toList =
      ("<?= ".toList ++ expression ++ " ?>".toList).flatMap (padBreak width)
    have hfront : "<?= ".toList.flatMap (padBreak width) = "<?= ".toList :=
      flatMap_padBreak (by decide)
    have hback : " ?>".toList.flatMap (padBreak width) = " ?>".toList :=
      flatMap_padBreak (by decide)
    rw [List.flatMap_append, List.flatMap_append, hfront, hback]
  | .span (.escaped expression) => exact (hkeeps.flatMap_braces expression).symm

/-- The lines of a text without empty lines are moved by padding its start and its breaks. -/
theorem toList_shift (s : String) (h : hasLineOf (fun _ => false) s = false) :
    (shift width s).toList = List.replicate width ' ' ++ s.toList.flatMap (padBreak width) := by
  -- One line is padded at its start, and so is the first of several lines.
  have hunbroken : ∀ t : String, Unbroken t → hasLineOf (fun _ => false) t = false →
      (shift width t).toList = List.replicate width ' ' ++ t.toList.flatMap (padBreak width) := by
    intro t ht hfilled
    have hne : t ≠ "" := by
      rintro rfl
      exact absurd hfilled (by decide)
    rw [shift_of_unbroken ht, if_neg hne, flatMap_padBreak ht]
    simp [spaces]
  by_cases hs : Unbroken s
  · exact hunbroken s hs h
  · obtain ⟨a, b, hab, ha⟩ := exists_break hs
    have hlength : b.length < s.length := by
      rw [hab, String.length_append, String.length_append]
      have hbreak : "\n".length = 1 := rfl
      omega
    rw [hab, hasLineOf_append_break, Bool.or_eq_false_iff] at h
    have hb := toList_shift b h.2
    rw [hab, shift_append_break]
    simp [hunbroken a ha h.1, hb, padBreak, List.append_assoc]
termination_by s.length

/-- If no line of a text is empty, it does not matter whether its lines are moved before or
after its interpolations are replaced. -/
theorem interpolate_shift (h : hasLineOf (fun _ => false) s = false) :
    interpolate (shift width s) false = shift width (interpolate s false) := by
  have hinterpolated : hasLineOf (fun _ => false) (interpolate s false) = false := by
    rw [hasLineOf_interpolate fun _ _ => rfl]
    exact h
  have hpadded : shift width s =
      spaces width ++ String.ofList (s.toList.flatMap (padBreak width)) := by
    refine String.toList_inj.1 ?_
    simp [toList_shift s h, spaces]
  refine String.toList_inj.1 ?_
  rw [toList_shift _ hinterpolated, hpadded, interpolate_spaces_append]
  simp [interpolate, spaces, interpolateChars_padBreak]

end Markup

/-! ### Blocks that can be moved -/

open Markup (Unbroken Solid shift)

mutual

/-- A node whose lines are all at the indentation of a level. Line breaks are written by the
renderer only, and a text has lines, none of which is empty. -/
def Node.Movable : Node → Prop
  | .group block => block.Movable
  | .tag tag => tag.Movable
  | .text text => text.lines ≠ [] ∧ ∀ line ∈ text.lines, line ≠ "" ∧ Unbroken line
  | .code code => code.Movable
  | .comment comment => comment.Movable
  | .doctype _ => False
  | .filter filter => filter.Movable

/-- What stands on the line of the tag is a single line. -/
def Tag.Movable : Tag → Prop
  | ⟨element, text, code, children⟩ =>
    Unbroken element.name ∧ element.attributes.Unbroken ∧
      (∀ t ∈ text, t.lines.length ≤ 1 ∧ ∀ line ∈ t.lines, Unbroken line) ∧
      (∀ c ∈ code, c.block = none ∧ Unbroken c.expression) ∧ children.Movable

def Code.Movable : Code → Prop
  | ⟨statement, none⟩ => Unbroken statement.expression
  | ⟨statement, some block⟩ => Unbroken statement.expression ∧ block.Movable

def Comment.Movable : Comment → Prop
  | ⟨remark, none⟩ => Unbroken remark.body
  | ⟨remark, some block⟩ => Unbroken remark.body ∧ block.Movable

def Filter.Movable : Filter → Prop
  | ⟨_, body⟩ => body.Movable

def Block.Movable : Block → Prop
  | ⟨_, children⟩ => Node.AllMovable children

def Node.AllMovable : List Node → Prop
  | [] => True
  | node :: nodes => node.Movable ∧ Node.AllMovable nodes

end

namespace Renderer

variable {r : Renderer}

/-! ### Lines one level deeper -/

theorem shift_indent_append (layout : Layout) {level : Nat} {s : String} (hs : Unbroken s)
    (h : s ≠ "" ∨ 0 < level) :
    shift layout.tabWidth (layout.indent level ++ s) = layout.indent (level + 1) ++ s := by
  have hspaces : spaces layout.tabWidth ++ layout.indent level = layout.indent (level + 1) := by
    refine String.toList_inj.1 ?_
    simp [Layout.indent, spaces, Nat.succ_mul, Nat.add_comm]
  rw [Markup.shift_of_unbroken (Markup.unbroken_append.2 ⟨layout.unbroken_indent level, hs⟩)]
  split
  · next hempty =>
    -- There is nothing to see on the line only if levels have no width.
    obtain ⟨hindent, rfl⟩ := String.append_eq_empty_iff.1 hempty
    have hlevel : 0 < level := h.resolve_left (fun hne => hne rfl)
    have hwidth : level * layout.tabWidth = 0 := by
      simpa [Layout.indent, spaces, ← String.toList_inj] using hindent
    have htab : layout.tabWidth = 0 := by
      rcases Nat.mul_eq_zero.1 hwidth with hzero | hzero
      · omega
      · exact hzero
    simp [Layout.indent, htab, spaces]
  · rw [← String.append_assoc, hspaces]

/-- Frames move if their lines are not empty, unless those are indented in any case. -/
theorem Frame.shift_around (layout : Layout) (level : Nat) {f : Frame}
    (hf : ∀ line ∈ f.lines, Unbroken line.2 ∧ (line.2 ≠ "" ∨ 0 < line.1)) (inner : String) :
    shift layout.tabWidth (f.around layout level inner) =
      f.around layout (level + 1) (shift layout.tabWidth inner) := by
  have hline : ∀ line ∈ f.lines, shift layout.tabWidth (placed layout level line) =
      placed layout (level + 1) line := by
    intro line hmem
    obtain ⟨hunbroken, hfilled⟩ := hf line hmem
    rw [placed, shift_indent_append layout hunbroken (hfilled.imp_right (by omega)), placed,
      show level + line.1 + 1 = level + 1 + line.1 by omega]
  have habove : (f.above.map (placed layout level)).map (shift layout.tabWidth) =
      f.above.map (placed layout (level + 1)) := by
    rw [List.map_map]
    exact List.map_congr_left fun line hmem => hline line (List.mem_append_left _ hmem)
  have hbelow : (f.below.map (placed layout level)).map (shift layout.tabWidth) =
      f.below.map (placed layout (level + 1)) := by
    rw [List.map_map]
    exact List.map_congr_left fun line hmem => hline line (List.mem_append_right _ hmem)
  rw [around, Markup.shift_intercalate (by simp), List.map_append, List.map_cons, habove, hbelow]
  rfl

/-- What stands inside of a frame moves with it. -/
theorem map_around_shift {level : Nat} {f : Frame}
    (hf : ∀ line ∈ f.lines, Unbroken line.2 ∧ (line.2 ≠ "" ∨ 0 < line.1))
    {inner deeper : Except RenderError String} (h : deeper = inner.map (shift r.layout.tabWidth)) :
    deeper.map (f.around r.layout (level + 1)) =
      (inner.map (f.around r.layout level)).map (shift r.layout.tabWidth) := by
  subst h
  cases inner with
  | error e => rfl
  | ok inner => exact congrArg Except.ok (Frame.shift_around r.layout level hf inner).symm

theorem Unvisited.shift_renderText (hr : r.Unvisited) (level : Nat) {t : Text}
    (h : (Node.text t).Movable) :
    r.renderText (level + 1) t = (r.renderText level t).map (shift r.layout.tabWidth) := by
  obtain ⟨hlines, hfilled⟩ := h
  have hnonempty : ∀ level, t.lines.map (r.layout.indent level ++ ·) ≠ [] := fun level =>
    mt List.map_eq_nil_iff.1 hlines
  -- No line is empty, indented or not.
  have hindented : Markup.hasLineOf (fun _ => false)
      ("\n".intercalate (t.lines.map (r.layout.indent level ++ ·))) = false := by
    rw [Markup.hasLineOf, Markup.lines_intercalate (hnonempty level)]
    · simp only [List.map_map, List.any_map, List.any_eq_false]
      intro line hline
      obtain ⟨c, hc⟩ :=
        List.exists_mem_of_ne_nil _ (mt String.toList_eq_nil_iff.1 (hfilled line hline).1)
      simpa using fun _ => ⟨c, hc⟩
    · intro line hline
      obtain ⟨s, hs, rfl⟩ := List.mem_map.1 hline
      exact Markup.unbroken_append.2 ⟨r.layout.unbroken_indent level, (hfilled s hs).2⟩
  have hshift : shift r.layout.tabWidth
      ("\n".intercalate (t.lines.map (r.layout.indent level ++ ·))) =
        "\n".intercalate (t.lines.map (r.layout.indent (level + 1) ++ ·)) := by
    rw [Markup.shift_intercalate (hnonempty level), List.map_map]
    refine congrArg _ (List.map_congr_left fun line hline => ?_)
    exact shift_indent_append r.layout (hfilled line hline).2 (.inl (hfilled line hline).1)
  rw [hr.renderText_eq _ hlines, hr.renderText_eq _ hlines, ← hshift,
    Markup.interpolate_shift hindented]
  rfl

/-- What stands on the line of a tag has no line breaks. -/
theorem Unvisited.exists_renderInlines (hr : r.Unvisited) {t : Tag} (h : t.Movable) :
    ∃ inlines, r.renderInlines t = .ok inlines ∧ ∀ inline ∈ inlines, Unbroken inline := by
  obtain ⟨element, text, code, children⟩ := t
  obtain ⟨-, -, htext, hcode, -⟩ := h
  have hinlineCode : ∃ inlines, r.inlineCode code = .ok inlines ∧
      ∀ inline ∈ inlines, Unbroken inline := by
    cases code with
    | none => exact ⟨[], rfl, List.forall_mem_nil _⟩
    | some code =>
      obtain ⟨head, block⟩ := code
      obtain ⟨hblock, hexpression⟩ := hcode _ rfl
      obtain rfl : block = none := hblock
      refine ⟨[r.layout.indent 0 ++ directive head], ?_, ?_⟩
      · show (r.renderCode 0 false ⟨head, none⟩).map _ = _
        rw [hr.renderCode_none]
        rfl
      · have hsolid := solid_directive hexpression
        simp [r.layout.unbroken_indent, hsolid.unbroken]
  have hinlineText : ∃ inlines, r.inlineText text = .ok inlines ∧
      ∀ inline ∈ inlines, Unbroken inline := by
    cases text with
    | none => exact ⟨[], rfl, List.forall_mem_nil _⟩
    | some text =>
      obtain ⟨hlength, hlines⟩ := htext text rfl
      cases htextLines : text.lines with
      | nil => exact ⟨[], by simp [inlineText, htextLines], List.forall_mem_nil _⟩
      | cons line others =>
        rw [htextLines] at hlength hlines
        obtain rfl : others = [] := List.eq_nil_of_length_eq_zero (by simpa using hlength)
        refine ⟨[Markup.interpolate (r.layout.indent 0 ++ line) false], ?_, ?_⟩
        · have hne : text.lines ≠ [] := by simp [htextLines]
          show (if text.lines = [] then _ else (r.renderText 0 text).map _) = _
          rw [if_neg hne, hr.renderText_eq 0 hne, htextLines]
          simp [Except.map]
        · have hline : Unbroken (r.layout.indent 0 ++ line) :=
            Markup.unbroken_append.2 ⟨r.layout.unbroken_indent 0, hlines line List.mem_cons_self⟩
          simp [Markup.unbroken_interpolate hline]
  obtain ⟨codes, hcodes, hcodesUnbroken⟩ := hinlineCode
  obtain ⟨texts, htexts, htextsUnbroken⟩ := hinlineText
  refine ⟨codes ++ texts, ?_, List.forall_mem_append.2 ⟨hcodesUnbroken, htextsUnbroken⟩⟩
  rw [renderInlines, hcodes, htexts]
  rfl

mutual

theorem Unextended.shift_renderNode (hr : r.Unextended) (level : Nat) (elseFollows : Bool) :
    (node : Node) → node.Movable → r.renderNode (level + 1) elseFollows node =
      (r.renderNode level elseFollows node).map (shift r.layout.tabWidth)
  | .group block => fun h => by
    rw [renderNode_group, renderNode_group]
    exact hr.shift_renderBlock level block h
  | .tag tag => fun h => by
    rw [renderNode_tag, renderNode_tag]
    exact hr.shift_renderTag level tag h
  | .text _ => fun h => by
    rw [renderNode_text, renderNode_text]
    exact hr.unvisited.shift_renderText level h
  | .code code => fun h => hr.shift_renderCode level elseFollows code h
  | .comment comment => fun h => by
    rw [renderNode_comment, renderNode_comment]
    exact hr.shift_renderComment level comment h
  | .doctype _ => fun h => h.elim
  | .filter filter => fun h => by
    rw [renderNode_filter, renderNode_filter]
    exact hr.shift_renderFilter level filter h

theorem Unextended.shift_renderTag (hr : r.Unextended) (level : Nat) :
    (tag : Tag) → tag.Movable →
      r.renderTag (level + 1) tag = (r.renderTag level tag).map (shift r.layout.tabWidth)
  | ⟨element, text, code, children⟩ => fun h => by
    obtain ⟨inlines, hinlines, hunbroken⟩ := hr.unvisited.exists_renderInlines h
    obtain ⟨hname, hattributes, -, -, hchildren⟩ := h
    have hopening := solid_opening hname hattributes
    rw [hr.unvisited.renderTag_around, hr.unvisited.renderTag_around]
    by_cases hself : element.name ∈ selfClosingTags
    · rw [if_pos hself, if_pos hself]
      have hsolid : Solid (opening element ++ " />") := hopening.append_right (by decide)
      exact congrArg Except.ok
        (shift_indent_append r.layout hsolid.unbroken (.inl hsolid.ne_empty)).symm
    rw [if_neg hself, if_neg hself, hinlines]
    show (if children.children.isEmpty then _ else _) =
      (if children.children.isEmpty then _ else _ : Except RenderError String).map _
    cases children.children.isEmpty with
    | true =>
      have hjoined : Unbroken (String.join inlines) := by
        rw [Unbroken, String.toList_join, List.mem_flatMap]
        rintro ⟨inline, hinline, hmem⟩
        exact hunbroken inline hinline hmem
      have hsolid : Solid
          (opening element ++ ">" ++ String.join inlines ++ "</" ++ element.name ++ ">") := by
        have hfront : Solid (opening element ++ ">") := hopening.append_right (by decide)
        exact (((hfront.append_right hjoined).append_right (by decide)).append_right
          hname).append_right (by decide)
      exact congrArg Except.ok
        (shift_indent_append r.layout hsolid.unbroken (.inl hsolid.ne_empty)).symm
    | false =>
      refine map_around_shift ?_ (hr.shift_renderBlock (level + 1) children hchildren)
      intro line hline
      rcases elementFrame_lines hname hattributes inlines line hline with
        hsolid | ⟨inline, hinline, rfl⟩
      · exact ⟨hsolid.unbroken, .inl hsolid.ne_empty⟩
      · exact ⟨hunbroken inline hinline, .inr Nat.one_pos⟩

theorem Unextended.shift_renderCode (hr : r.Unextended) (level : Nat) (elseFollows : Bool) :
    (code : Code) → code.Movable → r.renderCode (level + 1) elseFollows code =
      (r.renderCode level elseFollows code).map (shift r.layout.tabWidth)
  | ⟨head, none⟩ => fun h => by
    have hsolid := solid_directive (show Unbroken head.expression from h)
    rw [hr.unvisited.renderCode_none, hr.unvisited.renderCode_none]
    refine congrArg Except.ok (shift_indent_append r.layout hsolid.unbroken ?_).symm
    exact .inl hsolid.ne_empty
  | ⟨head, some block⟩ => fun h => by
    rw [hr.unvisited.renderCode_around, hr.unvisited.renderCode_around]
    refine map_around_shift ?_ (hr.shift_renderBlock (level + 1) block h.2)
    intro line hline
    rcases statementFrame_lines elseFollows h.1 line hline with hsolid | ⟨-, rfl⟩
    · exact ⟨hsolid.unbroken, .inl hsolid.ne_empty⟩
    · exact ⟨unbroken_dropBackslash (unbroken_trimLeadingSpaces h.1), .inr Nat.one_pos⟩

theorem Unextended.shift_renderComment (hr : r.Unextended) (level : Nat) :
    (comment : Comment) → comment.Movable → r.renderComment (level + 1) comment =
      (r.renderComment level comment).map (shift r.layout.tabWidth)
  | ⟨remark, none⟩ => fun h => by
    cases hbuffered : remark.buffered with
    | true =>
      have hsolid := solid_remark (show Unbroken remark.body from h)
      rw [hr.unvisited.renderComment_none _ hbuffered, hr.unvisited.renderComment_none _ hbuffered]
      refine congrArg Except.ok (shift_indent_append r.layout hsolid.unbroken ?_).symm
      exact .inl hsolid.ne_empty
    | false =>
      rw [hr.unvisited.renderComment_hidden _ hbuffered,
        hr.unvisited.renderComment_hidden _ hbuffered]
      exact congrArg Except.ok Markup.shift_empty.symm
  | ⟨remark, some block⟩ => fun h => by
    cases hbuffered : remark.buffered with
    | true =>
      rw [hr.unvisited.renderComment_around _ hbuffered,
        hr.unvisited.renderComment_around _ hbuffered]
      refine map_around_shift ?_ (hr.shift_renderBlock (level + 1) block h.2)
      intro line hline
      rcases remarkFrame_lines h.1 line hline with hsolid | ⟨hbody, rfl⟩
      · exact ⟨hsolid.unbroken, .inl hsolid.ne_empty⟩
      · exact ⟨h.1, .inl hbody⟩
    | false =>
      rw [hr.unvisited.renderComment_hidden _ hbuffered,
        hr.unvisited.renderComment_hidden _ hbuffered]
      exact congrArg Except.ok Markup.shift_empty.symm

theorem Unextended.shift_renderFilter (hr : r.Unextended) (level : Nat) :
    (filter : Filter) → filter.Movable → r.renderFilter (level + 1) filter =
      (r.renderFilter level filter).map (shift r.layout.tabWidth)
  | ⟨directive, body⟩ => fun h => by
    obtain hmissing | ⟨f, -, hf, haround⟩ := hr.renderFilter_cases directive
    · rw [hmissing, hmissing]
      rfl
    · rw [haround, haround]
      refine map_around_shift ?_ (hr.shift_renderNode (level + 1) false body h)
      intro line hline
      exact ⟨(hf line hline).unbroken, .inl (hf line hline).ne_empty⟩

theorem Unextended.shift_renderBlock (hr : r.Unextended) (level : Nat) :
    (block : Block) → block.Movable →
      r.renderBlock (level + 1) block = (r.renderBlock level block).map (shift r.layout.tabWidth)
  | ⟨line, children⟩ => fun h => by
    rw [renderBlock_eq, renderBlock_eq, hr.shift_renderAhead level false children h]
    cases r.renderAhead level false children with
    | error e => rfl
    | ok parts => exact congrArg Except.ok (Markup.shift_joinLines parts).symm

theorem Unextended.shift_renderAhead (hr : r.Unextended) (level : Nat) (elseFollows : Bool) :
    (nodes : List Node) → Node.AllMovable nodes →
      r.renderAhead (level + 1) elseFollows nodes =
        (r.renderAhead level elseFollows nodes).map (·.map (shift r.layout.tabWidth))
  | [] => fun _ => rfl
  | node :: nodes => fun h => by
    rw [renderAhead, renderAhead, hr.shift_renderNode level _ node h.1,
      hr.shift_renderAhead level elseFollows nodes h.2]
    cases r.renderNode level _ node with
    | error e => rfl
    | ok first => cases r.renderAhead level elseFollows nodes <;> rfl

end

/-- Nesting only moves the markup of a block: one level deeper, it has the same lines with the
width of a level in front of each that is not empty, and it fails where it failed before. -/
theorem nesting_shifts_markup {r : Renderer} (hr : r.Unextended) (level : Nat) {block : Block}
    (h : block.Movable) :
    r.renderBlock (level + 1) block =
      (r.renderBlock level block).map (shift r.layout.tabWidth) :=
  hr.shift_renderBlock level block h

/-- An empty frame leaves an empty line, and an interpolation goes on from one line of a text to
the next. -/
theorem nesting_shifts_markup_frames :
    let r : Renderer := { layout := { tabWidth := 3 }, filters := TextFilter.builtin }
    let hidden : Node := .comment ⟨⟨3, "note", false⟩, none⟩
    let block : Block := ⟨1,
      [.tag ⟨.ofName "li" 1, some ⟨1, ["one"]⟩, none, ⟨2, [hidden]⟩⟩,
        .filter ⟨⟨4, "php", .empty⟩, .text ⟨5, ["#\x7b$a", "+ $b\x7d"]⟩⟩]⟩
    r.renderBlock 0 block = .ok "<li>\n   one\n\n</li>\n<?php\n   <?= $a\n   + $b ?>\n?>" ∧
    r.renderBlock 1 block =
      .ok "   <li>\n      one\n\n   </li>\n   <?php\n      <?= $a\n      + $b ?>\n   ?>" := by
  intro r hidden block
  have hr : r.Unextended := ⟨fun _ => rfl, fun _ h => h⟩
  have hblock : block.Movable := by
    have hattributes : (Element.ofName "li" 1).attributes.Unbroken := by
      show ∀ entry ∈ [("id", Attribute.Value.flag false)], _
      simp [Attribute.Value.Unbroken, show Unbroken "id" by decide]
    refine ⟨⟨by decide, hattributes, ?_, ?_, ?_⟩, ?_, trivial⟩
    · simp [show Unbroken "one" by decide]
    · simp
    · exact ⟨show Unbroken "note" by decide, trivial⟩
    · show _ ≠ [] ∧ ∀ line ∈ ["#\x7b$a", "+ $b\x7d"], line ≠ "" ∧ Unbroken line
      simp [show Unbroken "#\x7b$a" by decide, show Unbroken "+ $b\x7d" by decide]
  have hrender : r.renderBlock 0 block =
      .ok "<li>\n   one\n\n</li>\n<?php\n   <?= $a\n   + $b ?>\n?>" :=
    renderNode_of_attempt 4 (by decide +kernel)
  refine ⟨hrender, ?_⟩
  rw [nesting_shifts_markup hr 0 hblock, hrender]
  refine congrArg Except.ok ?_
  decide +kernel

end Renderer

end Offside
