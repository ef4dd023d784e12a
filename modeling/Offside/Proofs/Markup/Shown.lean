import Offside.Proofs.Document.Shown
import Offside.Proofs.Markup.Siblings

/-!
# Markup depends on what documents show

Lines are for messages only, and what stands below a hidden comment is not rendered. A renderer
whose visitors do not look at lines either gives the markup of what a document shows
(`Lineless.renderBlock_map_shown`), and both kinds of engines that can be made have such a
renderer.
-/

set_option autoImplicit false

namespace Offside

/-- Short names are expanded on any line. -/
theorem Element.unlined_expand (e : Element) : e.unlined.expand = e.expand.unlined := by
  have hname : e.unlined.name = e.name := rfl
  unfold expand
  rw [hname]
  split
  · rw [← unlined_setAttributes]
    rfl
  · rfl

theorem Block.isEmpty_shown (b : Block) : b.shown.children.isEmpty = b.children.isEmpty := by
  obtain ⟨line, children⟩ := b
  cases children <;> rfl

namespace Renderer

/-- A renderer that revises tags only, each by itself and without looking at lines. -/
structure Lineless (r : Renderer) : Prop where
  others : ∀ kind, kind ≠ .tag → r.visitors kind = []
  tag : ∃ revise : Element → Element, (∀ e, revise e.unlined = (revise e).unlined) ∧
    ∀ t : Tag, r.visit .tag Visitor.tag t = .ok { t with toElement := revise t.toElement }

namespace Lineless

variable {r : Renderer} (hr : r.Lineless)

include hr

theorem visit {kind : Node.Kind} (hkind : kind ≠ .tag) {α : Type}
    (see : Visitor → α → Except VisitError α) (node : α) : r.visit kind see node = .ok node :=
  visit_of_no_visitors (hr.others kind hkind) see node

theorem renderText_unlined (level : Nat) (t : Text) :
    r.renderText level t.unlined = r.renderText level t := by
  rw [renderText, renderText, hr.visit (by decide), hr.visit (by decide)]
  rfl

theorem tagAround_unlined (level : Nat) (head : Element) (text : Option Text) (nested : Bool)
    (code : Option (Except RenderError String)) (below : Except RenderError String) :
    r.tagAround level head.unlined (text.map Text.unlined) nested code below =
      r.tagAround level head text nested code below := by
  cases text with
  | none => rfl
  | some text =>
    show (if head.name ∈ selfClosingTags then _ else code.elim _ _ >>= fun _ =>
      (if text.lines = [] then _ else (r.renderText 0 text.unlined).map _) >>= _) = _
    rw [hr.renderText_unlined]
    rfl

end Lineless

/-! ### Parts with the same markup -/

/-- Of two blocks that come to the same, both are there or none is. -/
theorem none_or_some_of_map_eq {β : Type} {f : Block → β} {block block' : Option Block}
    (h : block'.map f = block.map f) :
    block = none ∧ block' = none ∨ ∃ b b', block = some b ∧ block' = some b' ∧ f b' = f b := by
  cases block <;> cases block' <;> simp_all

section

variable {r : Renderer} (hr : r.Lineless) (level : Nat)

include hr

/-- Tags have the same markup where what is inside has. -/
theorem Lineless.renderTag_congr {element element' : Element} {text text' : Option Text}
    {code code' : Option Code} {children children' : Block}
    (helement : element'.unlined = element.unlined)
    (htext : text'.map Text.unlined = text.map Text.unlined)
    (hcode : code'.map (r.renderCode 0 false) = code.map (r.renderCode 0 false))
    (hempty : children'.children.isEmpty = children.children.isEmpty)
    (hchildren : r.renderBlock (level + 1) children' = r.renderBlock (level + 1) children) :
    r.renderTag level ⟨element', text', code', children'⟩ =
      r.renderTag level ⟨element, text, code, children⟩ := by
  obtain ⟨revise, hrevise, hvisit⟩ := hr.tag
  rw [renderTag_eq, renderTag_eq, hvisit, hvisit]
  show r.tagAround level (revise element') text' (!children'.children.isEmpty)
      (code'.map (r.renderCode 0 false)) (r.renderBlock (level + 1) children') =
    r.tagAround level (revise element) text (!children.children.isEmpty)
      (code.map (r.renderCode 0 false)) (r.renderBlock (level + 1) children)
  rw [← hr.tagAround_unlined, ← hrevise, helement, htext, hrevise, hr.tagAround_unlined, hempty,
    hcode, hchildren]

theorem Lineless.renderCode_congr (elseFollows : Bool) {head head' : Statement}
    {block block' : Option Block} (hhead : head'.unlined = head.unlined)
    (hblock : block'.map (r.renderBlock (level + 1)) = block.map (r.renderBlock (level + 1))) :
    r.renderCode level elseFollows ⟨head', block'⟩ =
      r.renderCode level elseFollows ⟨head, block⟩ := by
  obtain ⟨line, expression, buffered, verbatim⟩ := head
  obtain ⟨line', expression', buffered', verbatim'⟩ := head'
  obtain ⟨-, rfl, rfl, rfl⟩ := Statement.mk.inj hhead
  rw [renderCode_eq, renderCode_eq, hr.visit (by decide), hr.visit (by decide)]
  rcases none_or_some_of_map_eq hblock with ⟨rfl, rfl⟩ | ⟨b, b', rfl, rfl, hb⟩
  · rfl
  · show (r.renderBlock (level + 1) b').map _ = (r.renderBlock (level + 1) b).map _
    rw [hb]
    rfl

/-- The block below a hidden comment does not matter. -/
theorem Lineless.renderComment_congr {head head' : Remark} {block block' : Option Block}
    (hhead : head'.unlined = head.unlined) (hblock : head.buffered = true →
      block'.map (r.renderBlock (level + 1)) = block.map (r.renderBlock (level + 1))) :
    r.renderComment level ⟨head', block'⟩ = r.renderComment level ⟨head, block⟩ := by
  obtain ⟨line, body, buffered⟩ := head
  obtain ⟨line', body', buffered'⟩ := head'
  obtain ⟨-, rfl, rfl⟩ := Remark.mk.inj hhead
  rw [renderComment_eq, renderComment_eq, hr.visit (by decide), hr.visit (by decide)]
  cases buffered' with
  | false => rfl
  | true =>
    rcases none_or_some_of_map_eq (hblock rfl) with ⟨rfl, rfl⟩ | ⟨b, b', rfl, rfl, hb⟩
    · rfl
    · show (r.renderBlock (level + 1) b').map _ = (r.renderBlock (level + 1) b).map _
      rw [hb]
      rfl

theorem Lineless.renderFilter_congr {head head' : Directive} {body body' : Node}
    (hhead : head'.unlined = head.unlined)
    (hbody : r.renderNode (level + 1) false body' = r.renderNode (level + 1) false body) :
    r.renderFilter level ⟨head', body'⟩ = r.renderFilter level ⟨head, body⟩ := by
  obtain ⟨line, name, attributes⟩ := head
  obtain ⟨line', name', attributes'⟩ := head'
  obtain ⟨-, rfl, rfl⟩ := Directive.mk.inj hhead
  rw [renderFilter_eq, renderFilter_eq, hr.visit (by decide), hr.visit (by decide)]
  show (r.findFilter name' >>= fun _ => (r.renderNode (level + 1) false body').map _) =
    (r.findFilter name' >>= fun _ => (r.renderNode (level + 1) false body).map _)
  rw [hbody]

end

/-! ### What documents show -/

theorem continuesConditional_shown (node : Node) :
    continuesConditional node.shown = continuesConditional node := by
  cases node with
  | code c =>
    obtain ⟨head, block⟩ := c
    cases block <;> rfl
  | _ => rfl

mutual

theorem Lineless.renderNode_shown {r : Renderer} (hr : r.Lineless) (level : Nat)
    (elseFollows : Bool) :
    (node : Node) → r.renderNode level elseFollows node.shown = r.renderNode level elseFollows node
  | .group block => by
    rw [renderNode_group, Node.shown, renderNode_group, hr.renderBlock_shown level block]
  | .tag tag => by
    rw [renderNode_tag, Node.shown, renderNode_tag, hr.renderTag_shown level tag]
  | .text text => by
    rw [renderNode_text, Node.shown, renderNode_text, hr.renderText_unlined level text]
  | .code code => hr.renderCode_shown level elseFollows code
  | .comment comment => by
    rw [renderNode_comment, Node.shown, renderNode_comment, hr.renderComment_shown level comment]
  | .doctype doctype => by
    rw [renderNode_doctype, Node.shown, renderNode_doctype, renderDoctype, renderDoctype,
      hr.visit (by decide), hr.visit (by decide)]
    rfl
  | .filter filter => by
    rw [renderNode_filter, Node.shown, renderNode_filter, hr.renderFilter_shown level filter]

theorem Lineless.renderTag_shown {r : Renderer} (hr : r.Lineless) (level : Nat) :
    (tag : Tag) → r.renderTag level tag.shown = r.renderTag level tag
  | ⟨element, text, none, children⟩ =>
    hr.renderTag_congr level rfl (by rw [Option.map_map]; rfl) rfl children.isEmpty_shown
      (hr.renderBlock_shown (level + 1) children)
  | ⟨element, text, some code, children⟩ =>
    hr.renderTag_congr level rfl (by rw [Option.map_map]; rfl)
      (congrArg some (hr.renderCode_shown 0 false code)) children.isEmpty_shown
      (hr.renderBlock_shown (level + 1) children)

theorem Lineless.renderCode_shown {r : Renderer} (hr : r.Lineless) (level : Nat)
    (elseFollows : Bool) :
    (code : Code) → r.renderCode level elseFollows code.shown = r.renderCode level elseFollows code
  | ⟨_, none⟩ => hr.renderCode_congr level elseFollows rfl rfl
  | ⟨_, some block⟩ =>
    hr.renderCode_congr level elseFollows rfl
      (congrArg some (hr.renderBlock_shown (level + 1) block))

theorem Lineless.renderComment_shown {r : Renderer} (hr : r.Lineless) (level : Nat) :
    (comment : Comment) → r.renderComment level comment.shown = r.renderComment level comment
  | ⟨_, none⟩ => hr.renderComment_congr level rfl fun _ => rfl
  | ⟨_, some block⟩ =>
    hr.renderComment_congr level rfl fun hbuffered => by
      dsimp only
      rw [if_pos hbuffered]
      exact congrArg some (hr.renderBlock_shown (level + 1) block)

theorem Lineless.renderFilter_shown {r : Renderer} (hr : r.Lineless) (level : Nat) :
    (filter : Filter) → r.renderFilter level filter.shown = r.renderFilter level filter
  | ⟨_, body⟩ => hr.renderFilter_congr level rfl (hr.renderNode_shown (level + 1) false body)

theorem Lineless.renderBlock_shown {r : Renderer} (hr : r.Lineless) (level : Nat) :
    (block : Block) → r.renderBlock level block.shown = r.renderBlock level block
  | ⟨_, children⟩ => by
    rw [Block.shown, renderBlock_eq, renderBlock_eq, hr.renderAhead_shown level false children]

theorem Lineless.renderAhead_shown {r : Renderer} (hr : r.Lineless) (level : Nat)
    (elseFollows : Bool) : (nodes : List Node) →
      r.renderAhead level elseFollows (Node.shownAll nodes) = r.renderAhead level elseFollows nodes
  | [] => rfl
  | node :: nodes => by
    have hhead : (Node.shownAll nodes).head?.map continuesConditional =
        nodes.head?.map continuesConditional := by
      cases nodes with
      | nil => rfl
      | cons next nodes => exact congrArg some (continuesConditional_shown next)
    rw [Node.shownAll, renderAhead, renderAhead, hhead, hr.renderNode_shown level _ node,
      hr.renderAhead_shown level elseFollows nodes]

end

/-- The markup of a block is that of what its nodes show. -/
theorem Lineless.renderBlock_map_shown {r : Renderer} (hr : r.Lineless) (level : Nat)
    (block : Block) :
    r.renderBlock level block = r.renderBlock level ⟨0, block.children.map Node.shown⟩ := by
  obtain ⟨line, children⟩ := block
  rw [← hr.renderBlock_shown, Block.shown_mk]

/-! ### Engines -/

theorem lineless_plain (layout : Layout) : Lineless { layout } where
  others := fun _ _ => rfl
  tag := by
    refine ⟨id, fun _ => rfl, fun t => ?_⟩
    obtain ⟨element, text, code, children⟩ := t
    rfl

/-- Filters change neither the layout nor the visitors. -/
theorem registerFilters_eq (r : Renderer) (filters : List (String × TextFilter)) :
    (r.registerFilters filters).2.layout = r.layout ∧
      (r.registerFilters filters).2.visitors = r.visitors := by
  induction filters generalizing r with
  | nil => exact ⟨rfl, rfl⟩
  | cons entry filters ih =>
    rw [registerFilters, registerFilter]
    cases r.filter? entry.1 with
    | none => exact ih _
    | some _ => exact ⟨rfl, rfl⟩

theorem Lineless.of_visitors {r : Renderer}
    (h : ∀ kind, r.visitors kind = if kind = .tag then [.autotags] else []) : r.Lineless where
  others := fun kind hkind => by rw [h, if_neg hkind]
  tag := by
    refine ⟨Element.expand, Element.unlined_expand, fun t => ?_⟩
    rw [Renderer.visit, h, if_pos rfl]
    rfl

end Renderer

namespace Engine

/-- An engine as it is made, with no extensions or with all of them. -/
def Made (layout : Layout) (e : Engine) : Prop :=
  e = plain layout ∨ standard layout = .ok e

/-- What an engine is made of that has all extensions. -/
theorem standard_renderer {layout : Layout} {e : Engine} (h : standard layout = .ok e) :
    e.renderer.layout = layout ∧
      (∀ kind, e.renderer.visitors kind = if kind = .tag then [.autotags] else []) ∧
      e.renderer.filters = TextFilter.builtin := by
  let r : Renderer :=
    { layout, visitors := fun kind => if kind = .tag then [.autotags] else [] }
  have hr := r.registerFilters_eq TextFilter.builtin
  have hfilters : (r.registerFilters TextFilter.builtin).2.filters = TextFilter.builtin := by
    rfl
  have hmade : standard layout = match (r.registerFilters TextFilter.builtin).1 with
      | .ok () => .ok { renderer := (r.registerFilters TextFilter.builtin).2 }
      | .error error => .error (.registration error) := by
    rfl
  rw [hmade] at h
  split at h
  · obtain rfl := Except.ok.inj h
    exact ⟨hr.1, fun kind => by rw [hr.2], hfilters⟩
  · cases h

theorem Made.lineless {layout : Layout} {e : Engine} (h : Made layout e) :
    e.renderer.layout = layout ∧ e.renderer.Lineless := by
  rcases h with rfl | h
  · exact ⟨rfl, Renderer.lineless_plain layout⟩
  · obtain ⟨hlayout, hvisitors, -⟩ := standard_renderer h
    exact ⟨hlayout, .of_visitors hvisitors⟩

end Engine

end Offside
