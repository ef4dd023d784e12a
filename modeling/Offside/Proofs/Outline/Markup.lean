import Offside.Proofs.Markup.Below
import Offside.Proofs.Outline.Reading

/-!
# The markup of an outline of tags

An outline that holds nothing but the names of tags is rendered as the nested markup of
those tags (`Engine.render_print_tags`). Each level of the markup is as far in as the
layout says, whatever the width of a level in the printed outline was.

`TagForest.lines` says what that markup is, line by line and without a renderer. A tag
with nothing below it is one line. Any other tag has a line in front of the lines of what
is below it, and a line behind them.
-/

set_option autoImplicit false

namespace Offside

open Offside.Character (spaces)

/-- The name of a tag that is rendered with a closing tag. -/
structure PlainName where
  name : String
  isName : Outline.IsName name
  closes : name ∉ Renderer.selfClosingTags

/-- A forest of tags: it is empty, or it starts with a tag, the forest below that tag, and
what comes next at the same level. -/
inductive TagForest where
  | nil
  | cons (tag : PlainName) (below next : TagForest)

namespace TagForest

/-- The outline with one line for each tag. -/
def outline : TagForest → Outline
  | nil => .nil
  | cons tag below next => .cons (.tag tag.name none) below.outline next.outline

/-- Whether a forest has no tags. -/
def isEmpty : TagForest → Bool
  | nil => true
  | cons _ _ _ => false

/-- The lines of the markup of a forest, where each level is `width` spaces wide and the
forest is at the given depth. -/
def lines (width depth : Nat) : TagForest → List String
  | nil => []
  | cons tag below next =>
    let indent := spaces (depth * width)
    let element :=
      if below.isEmpty then [indent ++ "<" ++ tag.name ++ "></" ++ tag.name ++ ">"]
      else
        (indent ++ "<" ++ tag.name ++ ">") :: below.lines width (depth + 1) ++
          [indent ++ "</" ++ tag.name ++ ">"]
    element ++ next.lines width depth

/-- The markup of a forest. -/
def markup (width : Nat) (f : TagForest) : String :=
  "\n".intercalate (f.lines width 0)

theorem outline_valid (f : TagForest) : f.outline.Valid := by
  induction f with
  | nil => trivial
  | cons tag below next ihbelow ihnext =>
    refine ⟨⟨⟨tag.isName, by simp⟩, ?_⟩, ihbelow, ihnext⟩
    -- The last character of a name is one of its characters, and none of them is margin.
    intro c hc
    exact tag.isName.isMargin_of_mem (List.mem_of_getLast? hc)

theorem lines_ne_empty (width depth : Nat) (f : TagForest) : ∀ l ∈ f.lines width depth, l ≠ "" := by
  induction f generalizing depth with
  | nil => simp [lines]
  | cons tag below next ihbelow ihnext =>
    intro l hl
    simp only [lines, List.mem_append] at hl
    rcases hl with hl | hl
    · split at hl
      · obtain rfl := List.mem_singleton.1 hl
        simp
      · simp only [List.cons_append, List.mem_cons, List.mem_append, List.not_mem_nil,
          or_false] at hl
        rcases hl with rfl | hl | rfl
        · simp
        · exact ihbelow (depth + 1) l hl
        · simp
    · exact ihnext depth l hl

open Markup (joinLines joinLines_append joinLines_singleton)

theorem filter_lines (width depth : Nat) (f : TagForest) :
    (f.lines width depth).filter (· ≠ "") = f.lines width depth :=
  List.filter_eq_self.2 fun l hl => by simpa using f.lines_ne_empty width depth l hl

theorem joinLines_lines_cons_ne_empty (width depth : Nat) (tag : PlainName)
    (below next : TagForest) : joinLines ((cons tag below next).lines width depth) ≠ "" := by
  rw [Ne, Markup.joinLines_eq_empty_iff, filter_lines]
  simp only [lines]
  split <;> simp

/-! ### Rendering tags -/

variable {r : Renderer}

theorem markup_freshAttributes : Element.freshAttributes.markup = "" := by
  decide

/-- A tag with nothing in it is one line. -/
theorem renderTag_leaf (hr : r.Unvisited) (level line : Nat) (tag : PlainName) :
    r.renderTag level
        { Element.ofName tag.name line with text := none, code := none, children := ⟨line, []⟩ } =
      .ok (r.layout.indent level ++ "<" ++ tag.name ++ "></" ++ tag.name ++ ">") := by
  have hname : (Element.ofName tag.name line).name ∉ Renderer.selfClosingTags := tag.closes
  rw [hr.renderTag_eq]
  simp only [Renderer.tagAround, if_neg hname]
  simp [Element.ofName, markup_freshAttributes, bind, Except.bind, pure, Except.pure,
    String.append_assoc]

/-- A tag stands around the lines of what is below it. -/
theorem renderTag_around (hr : r.Unvisited) (level line : Nat) (tag : PlainName) {below : Block}
    {inner : List String} (hchildren : below.children ≠ [])
    (hbelow : r.renderBlock (level + 1) below = .ok (joinLines inner))
    (hinner : joinLines inner ≠ "") :
    r.renderTag level
        { Element.ofName tag.name line with text := none, code := none, children := below } =
      .ok (joinLines ((r.layout.indent level ++ "<" ++ tag.name ++ ">") :: inner ++
        [r.layout.indent level ++ "</" ++ tag.name ++ ">"])) := by
  have hname : (Element.ofName tag.name line).name ∉ Renderer.selfClosingTags := tag.closes
  have hnested : below.children.isEmpty = false := by simpa using hchildren
  have hrender : r.renderTag level
      { Element.ofName tag.name line with text := none, code := none, children := below } =
        .ok (r.layout.indent level ++ "<" ++ tag.name ++ ">" ++
          ("\n" ++ joinLines inner ++ "\n" ++ r.layout.indent level) ++
          "</" ++ tag.name ++ ">") := by
    rw [hr.renderTag_eq]
    simp only [Renderer.tagAround, if_neg hname, hnested, hbelow]
    simp [Element.ofName, markup_freshAttributes, bind, Except.bind, pure, Except.pure, Except.map]
  -- The opening tag, the lines and the closing tag are none of them empty.
  have hfront : joinLines ((r.layout.indent level ++ "<" ++ tag.name ++ ">") :: inner) =
      r.layout.indent level ++ "<" ++ tag.name ++ ">" ++ "\n" ++ joinLines inner := by
    rw [Markup.joinLines_cons, Markup.joinLines_pair (by simp) hinner]
  rw [hrender, joinLines_append, joinLines_singleton, hfront,
    Markup.joinLines_pair (by simp) (by simp)]
  simp only [String.append_assoc]

/-- A node in front of tags is rendered in front of them. -/
theorem renderBlock_cons (level number line : Nat) (tidy : String → String) (node : Node)
    (f : TagForest) {front back : String} (hfront : r.renderNode level false node = .ok front)
    (hback : r.renderBlock level ⟨number, f.outline.nodes tidy line⟩ = .ok back) :
    r.renderBlock level ⟨number, node :: f.outline.nodes tidy line⟩ =
      .ok (joinLines [front, back]) := by
  -- The first node of a forest is a tag, so no conditional goes on with it.
  have hapart : (f.outline.nodes tidy line).head?.any Renderer.continuesConditional = false := by
    cases f <;> rfl
  have hnode : r.renderBlock level ⟨number, [node]⟩ = .ok front := by
    rw [Renderer.renderBlock_eq]
    simp [Renderer.renderAhead, hfront, Except.map, bind, Except.bind, pure, Except.pure,
      joinLines_singleton]
  rw [← List.singleton_append, r.renderBlock_append_apart level number [node] hapart, hnode, hback]
  rfl

/-- The nodes of a forest are rendered as its lines, wherever they stand in a template. -/
theorem renderBlock_outline (hr : r.Unvisited) (tidy : String → String) (level number line : Nat)
    (f : TagForest) :
    r.renderBlock level ⟨number, f.outline.nodes tidy line⟩ =
      .ok (joinLines (f.lines r.layout.tabWidth level)) := by
  induction f generalizing level number line with
  | nil =>
    rw [Renderer.renderBlock_eq]
    rfl
  | cons tag below next ihbelow ihnext =>
    -- The tag and what is below it are one node, which is the first part of the lines.
    simp only [lines]
    rw [joinLines_append]
    refine renderBlock_cons level number _ tidy _ next ?_ (ihnext level number _)
    cases below with
    | nil =>
      simp only [isEmpty, if_true, joinLines_singleton]
      exact renderTag_leaf hr level line tag
    | cons first below' next' =>
      exact renderTag_around hr level line tag (List.cons_ne_nil _ _)
        (ihbelow (level + 1) (line + 1) (line + 1)) (joinLines_lines_cons_ne_empty _ _ _ _ _)

end TagForest

namespace Engine

/-- A printed forest of tags is rendered as its markup, for every width `k` of a level in
the outline and every width `t` of a level in the markup. -/
theorem render_print_tags (k : Nat) (hk : 1 ≤ k) (t : Nat) (f : TagForest) :
    (plain { tabWidth := t }).render (f.outline.print k) = .ok (f.markup t) := by
  have hrender := f.renderBlock_outline (r := { layout := { tabWidth := t } }) (fun _ => rfl)
    (Outline.tidyBody { tabWidth := t }) 0 1 1
  rw [Markup.joinLines, f.filter_lines] at hrender
  exact render_eq_ok_iff.2 ⟨_, Outline.parse_print { tabWidth := t } hk f.outline_valid, hrender⟩

/-- The last line closes two levels at once. -/
theorem render_print_tags_list :
    (plain { tabWidth := 4 }).render "ul\n li\n li\n  a\n  b\np" = .ok
      ("<ul>\n    <li></li>\n    <li>\n        <a></a>\n        <b></b>\n    </li>\n</ul>\n" ++
        "<p></p>") := by
  let ul : PlainName := ⟨"ul", by decide +kernel, by decide⟩
  let li : PlainName := ⟨"li", by decide +kernel, by decide⟩
  let a : PlainName := ⟨"a", by decide +kernel, by decide⟩
  let b : PlainName := ⟨"b", by decide +kernel, by decide⟩
  let p : PlainName := ⟨"p", by decide +kernel, by decide⟩
  let f : TagForest :=
    .cons ul (.cons li .nil (.cons li (.cons a .nil (.cons b .nil .nil)) .nil)) (.cons p .nil .nil)
  have hprint : f.outline.print 1 = "ul\n li\n li\n  a\n  b\np" := by decide +kernel
  have hmarkup : f.markup 4 =
      "<ul>\n    <li></li>\n    <li>\n        <a></a>\n        <b></b>\n    </li>\n</ul>\n" ++
        "<p></p>" := by
    decide +kernel
  have hrender := render_print_tags 1 (by decide) 4 f
  rwa [hprint, hmarkup] at hrender

end Engine

end Offside
