import Offside.Engine
import Offside.Proofs.General

/-!
# Rendering step by step

Rendering is a fixed point: `rendering` is what `step` makes of `rendering` itself. Where it does
not end, the result is an error (`settle`), and the results satisfy the same equation
(`renderNode_eq_step`). From it follows one equation for each kind of nodes; the other proofs
about markup use these, and never look at the fixed point.

A fixed point is not evaluated, so what comes out for a given document is found with a bound on
how deep to go (`attempt`). If that is enough, it is what rendering comes to
(`render_of_attempt`).
-/

set_option autoImplicit false

namespace Offside

namespace Renderer

/-! ### Results -/

/-- What a computation comes to. That it does not end is an error. -/
def settle {α : Type} (x : Rendering α) : Except RenderError α :=
  x.run.getD (.error .endless)

/-- Computations go on as their results do. -/
def settling : Simulation Rendering (Except RenderError) where
  rel x y := settle x = y
  rel_pure a := rfl
  rel_bind {α β x y f g} hx hf := by
    subst hx
    show (x >>= f).run.getD _ = (x.run.getD _ >>= g)
    rw [ExceptT.run_bind]
    cases x.run with
    | none => rfl
    | some first =>
      cases first with
      | error e => rfl
      | ok a => exact hf a

variable {α : Type}

/-- What is done at once is its own result. -/
theorem settling_liftM (x : Except RenderError α) :
    settling.rel (liftM x : Rendering α) (liftM x) := by
  show settle (liftM x : Rendering α) = x
  rfl

/-- The results of rendering satisfy the equation of a step. -/
theorem renderNode_eq_step (r : Renderer) (level : Nat) (elseFollows : Bool) (node : Node) :
    r.renderNode level elseFollows node = r.step r.renderNode level elseFollows node := by
  show settle (r.rendering level elseFollows node) = _
  rw [rendering]
  exact settling.rel_step rfl rfl settling_liftM (fun name => settling_liftM (r.findFilter name))
    (fun _ _ _ => rfl) level elseFollows node

/-! ### Other filters -/

variable {node : Node} {out : Except RenderError String}

/-- What one renderer comes to, another one comes to that differs in its filters only, as far as
they find the same filters. The induction is on how far rendering has got. -/
theorem rendering_extends {r s : Renderer} (counts : RenderError → Prop)
    (hlayout : r.layout = s.layout) (hvisitors : r.visitors = s.visitors)
    (hfind : ∀ name, (Rendering.extending counts).rel (liftM (r.findFilter name))
      (liftM (s.findFilter name))) {level : Nat} {elseFollows : Bool}
    (hcounts : ∀ e, out = .error e → counts e)
    (h : r.rendering level elseFollows node = some out) :
    s.rendering level elseFollows node = some out := by
  refine rendering.partial_correctness r
    (fun level elseFollows node out => (∀ e, out = .error e → counts e) →
      s.rendering level elseFollows node = some out) ?_ level elseFollows node out h hcounts
  intro self hself level elseFollows node out hout hcounts
  rw [rendering]
  refine (Rendering.extending counts).rel_step hlayout hvisitors (fun _ _ _ h => h) hfind ?_ level
    elseFollows node out hcounts hout
  intro level elseFollows node out hcounts hrun
  exact hself level elseFollows node out hrun hcounts

/-- Renderers that differ in their filters, but find the same ones, render alike. -/
theorem render_congr {r s : Renderer} (hlayout : r.layout = s.layout)
    (hvisitors : r.visitors = s.visitors) (hfind : ∀ name, r.findFilter name = s.findFilter name)
    (root : Block) : r.render root = s.render root := by
  have hsame : r.rendering 0 false (.group root) = s.rendering 0 false (.group root) := by
    refine Option.ext fun out => ⟨?_, ?_⟩
    · exact rendering_extends (fun _ => True) hlayout hvisitors
        (fun name out _ h => hfind name ▸ h) fun _ _ => trivial
    · exact rendering_extends (fun _ => True) hlayout.symm hvisitors.symm
        (fun name out _ h => hfind name ▸ h) fun _ _ => trivial
  show (r.rendering 0 false (.group root)).getD _ = (s.rendering 0 false (.group root)).getD _
  rw [hsame]

/-! ### Bounded rendering -/

/-- What rendering a node comes to, if no node stands inside more than a number of others. -/
def attempt (r : Renderer) : Nat → Nat → Bool → Node → Option (Except RenderError String)
  | 0, _, _, _ => none
  | depth + 1, level, elseFollows, node =>
    r.step (m := Rendering) (r.attempt depth) level elseFollows node

/-- What is found within a bound is what rendering comes to. -/
theorem rendering_of_attempt {r : Renderer} {depth level : Nat} {elseFollows : Bool}
    (h : r.attempt depth level elseFollows node = some out) :
    r.rendering level elseFollows node = some out := by
  induction depth generalizing level elseFollows node out with
  | zero => cases h
  | succ depth ih =>
    rw [rendering]
    exact r.step_mono (fun _ _ _ _ => ih) level elseFollows node out h

theorem renderNode_of_attempt {r : Renderer} {level : Nat} {elseFollows : Bool} (depth : Nat)
    (h : r.attempt depth level elseFollows node = some out) :
    r.renderNode level elseFollows node = out := by
  rw [renderNode, rendering_of_attempt h]
  rfl

theorem render_of_attempt {r : Renderer} {root : Block}
    (depth : Nat) (h : r.attempt depth 0 false (.group root) = some out) : r.render root = out :=
  renderNode_of_attempt depth h

/-! ### Nodes of each kind -/

/-- The markup of a tag. -/
def renderTag (r : Renderer) (level : Nat) (tag : Tag) : Except RenderError String :=
  r.renderNode level false (.tag tag)

/-- The markup of code. -/
def renderCode (r : Renderer) (level : Nat) (elseFollows : Bool) (code : Code) :
    Except RenderError String :=
  r.renderNode level elseFollows (.code code)

/-- The markup of a comment. -/
def renderComment (r : Renderer) (level : Nat) (comment : Comment) : Except RenderError String :=
  r.renderNode level false (.comment comment)

/-- The markup of a filter. -/
def renderFilter (r : Renderer) (level : Nat) (filter : Filter) : Except RenderError String :=
  r.renderNode level false (.filter filter)

/-- Only code depends on whether a further branch of a conditional follows. -/
theorem renderNode_of_not_code (r : Renderer) (level : Nat) (elseFollows elseFollows' : Bool)
    (h : ∀ code, node ≠ .code code) :
    r.renderNode level elseFollows node = r.renderNode level elseFollows' node := by
  rw [renderNode_eq_step, renderNode_eq_step r level elseFollows']
  cases node with
  | code code => exact absurd rfl (h code)
  | _ => rfl

section

variable (r : Renderer) (level : Nat) (elseFollows : Bool)

@[simp]
theorem renderNode_group (block : Block) :
    r.renderNode level elseFollows (.group block) = r.renderBlock level block :=
  r.renderNode_of_not_code level elseFollows false nofun

@[simp]
theorem renderNode_tag (tag : Tag) :
    r.renderNode level elseFollows (.tag tag) = r.renderTag level tag :=
  r.renderNode_of_not_code level elseFollows false nofun

@[simp]
theorem renderNode_text (text : Text) :
    r.renderNode level elseFollows (.text text) = r.renderText level text := by
  rw [renderNode_eq_step]
  rfl

@[simp]
theorem renderNode_comment (comment : Comment) :
    r.renderNode level elseFollows (.comment comment) = r.renderComment level comment :=
  r.renderNode_of_not_code level elseFollows false nofun

@[simp]
theorem renderNode_doctype (doctype : Doctype) :
    r.renderNode level elseFollows (.doctype doctype) = r.renderDoctype doctype := by
  rw [renderNode_eq_step]
  rfl

@[simp]
theorem renderNode_filter (filter : Filter) :
    r.renderNode level elseFollows (.filter filter) = r.renderFilter level filter :=
  r.renderNode_of_not_code level elseFollows false nofun

end

/-- The markup of code, once visitors have seen it. -/
theorem renderCode_eq (r : Renderer) (level : Nat) (elseFollows : Bool) (code : Code) :
    r.renderCode level elseFollows code = (do
      let code ← r.visit .code Visitor.code code
      match code.block with
      | some block =>
        (r.renderBlock (level + 1) block).map fun inner =>
          r.layout.indent level ++ (r.codeFrame level elseFollows code.toStatement).1 ++ inner ++
            (r.codeFrame level elseFollows code.toStatement).2
      | none => return r.layout.indent level ++ directive code.toStatement) := by
  rw [renderCode, renderNode_eq_step]
  rfl

/-- The markup of a comment, once visitors have seen it. A hidden comment has none. -/
theorem renderComment_eq (r : Renderer) (level : Nat) (comment : Comment) :
    r.renderComment level comment = (do
      let comment ← r.visit .comment Visitor.comment comment
      if comment.buffered then
        match comment.block with
        | some block =>
          (r.renderBlock (level + 1) block).map fun inner =>
            r.layout.indent level ++ (r.commentFrame level comment.toRemark).1 ++ inner ++ "
" ++
              r.layout.indent level ++ (r.commentFrame level comment.toRemark).2
        | none => return r.layout.indent level ++ "<!-- " ++ comment.body ++ " -->"
      else return "") := by
  rw [renderComment, renderNode_eq_step]
  rfl

/-- The markup of a filter, once visitors have seen it. -/
theorem renderFilter_eq (r : Renderer) (level : Nat) (filter : Filter) :
    r.renderFilter level filter = (do
      let filter ← r.visit .filter Visitor.filter filter
      let apply ← r.findFilter filter.name
      (r.renderNode (level + 1) false filter.body).map fun text =>
        apply text filter.attributes (r.layout.indent level)) := by
  rw [renderFilter, renderNode_eq_step]
  rfl

theorem part_eq_elim (around : String → String) (markup : Option (Except RenderError String)) :
    part around markup = markup.elim (.ok "") (·.map around) := by
  cases markup <;> rfl

/-- The markup of a tag, given the markup of the code on its line and of the block below,
if it is `nested`. -/
def tagAround (r : Renderer) (level : Nat) (head : Element) (text : Option Text) (nested : Bool)
    (code : Option (Except RenderError String)) (below : Except RenderError String) :
    Except RenderError String :=
  let opening := r.layout.indent level ++ "<" ++ head.name ++ head.attributes.markup
  let lead := if nested then "\n" ++ r.layout.indent (level + 1) else ""
  if head.name ∈ selfClosingTags then .ok (opening ++ " />")
  else do
    let code ← code.elim (.ok "") (·.map (lead ++ ·))
    let text ← text.elim (.ok "") fun text =>
      if text.lines = [] then .ok "" else (r.renderText 0 text).map (lead ++ ·)
    let below ← cond nested (below.map ("\n" ++ · ++ "\n" ++ r.layout.indent level)) (.ok "")
    return opening ++ ">" ++ code ++ text ++ below ++ "</" ++ head.name ++ ">"

/-- The markup of a tag, once visitors have seen it. -/
theorem renderTag_eq (r : Renderer) (level : Nat) (t : Tag) :
    r.renderTag level t = (do
      let t ← r.visit .tag Visitor.tag t
      r.tagAround level t.toElement t.text (!t.children.children.isEmpty)
        (t.code.map (r.renderCode 0 false)) (r.renderBlock (level + 1) t.children)) := by
  rw [renderTag, renderNode_eq_step]
  refine congrArg (r.visit .tag Visitor.tag t >>= ·) (funext fun t => ?_)
  obtain ⟨element, text, code, children⟩ := t
  show (if element.name ∈ selfClosingTags then _ else _) =
    (if element.name ∈ selfClosingTags then _ else _)
  split
  · rfl
  have htext (lead : String) : part (lead ++ ·)
        ((text.filter (·.lines ≠ [])).map fun text => r.renderNode 0 false (.text text)) =
      text.elim (.ok "") fun text =>
        if text.lines = [] then .ok "" else (r.renderText 0 text).map (lead ++ ·) := by
    rw [part_eq_elim]
    cases text with
    | none => rfl
    | some text => by_cases hlines : text.lines = [] <;> simp [hlines, Option.filter]
  have hblock (below : Except RenderError String) (around : String → String) :
      part around (if !children.children.isEmpty then some below else none) =
        cond (!children.children.isEmpty) (below.map around) (.ok "") := by
    rw [part_eq_elim]
    cases !children.children.isEmpty <;> rfl
  dsimp only
  rw [htext, hblock, part_eq_elim]
  rfl

/-! ### Without visitors -/

/-- A renderer for which no visitors are registered. -/
def Unvisited (r : Renderer) : Prop :=
  ∀ kind, r.visitors kind = []

/-- Without visitors of its kind, a node is rendered as it is. -/
theorem visit_of_no_visitors {r : Renderer} {kind : Node.Kind} (h : r.visitors kind = [])
    (see : Visitor → α → Except VisitError α) (node : α) :
    r.visit kind see node = .ok node := by
  rw [visit, h]
  rfl

theorem Unvisited.visit {r : Renderer} (hr : r.Unvisited) (kind : Node.Kind)
    (see : Visitor → α → Except VisitError α) (node : α) : r.visit kind see node = .ok node :=
  visit_of_no_visitors (hr kind) see node

section

variable {r : Renderer} {level : Nat} {elseFollows : Bool}

/-- Code that visitors leave without a block. -/
theorem renderCode_none_of_visit {code : Code} {head : Statement}
    (h : r.visit .code Visitor.code code = .ok ⟨head, none⟩) :
    r.renderCode level elseFollows code = .ok (r.layout.indent level ++ directive head) := by
  rw [renderCode_eq, h]
  rfl

/-- Code that visitors leave with a block. -/
theorem renderCode_some_of_visit {code : Code} {head : Statement} {block : Block}
    (h : r.visit .code Visitor.code code = .ok ⟨head, some block⟩) :
    r.renderCode level elseFollows code =
      (r.renderBlock (level + 1) block).map fun inner =>
        r.layout.indent level ++ (r.codeFrame level elseFollows head).1 ++ inner ++
          (r.codeFrame level elseFollows head).2 := by
  rw [renderCode_eq, h]
  rfl

end

section

variable {r : Renderer} (hr : r.Unvisited) (level : Nat) (elseFollows : Bool)

include hr

theorem Unvisited.renderTag_eq (t : Tag) :
    r.renderTag level t =
      r.tagAround level t.toElement t.text (!t.children.children.isEmpty)
        (t.code.map (r.renderCode 0 false)) (r.renderBlock (level + 1) t.children) := by
  rw [Renderer.renderTag_eq, hr.visit]
  rfl

theorem Unvisited.renderCode_none (head : Statement) :
    r.renderCode level elseFollows ⟨head, none⟩ =
      .ok (r.layout.indent level ++ directive head) :=
  renderCode_none_of_visit (hr.visit _ _ _)

theorem Unvisited.renderCode_some (head : Statement) (block : Block) :
    r.renderCode level elseFollows ⟨head, some block⟩ =
      (r.renderBlock (level + 1) block).map fun inner =>
        r.layout.indent level ++ (r.codeFrame level elseFollows head).1 ++ inner ++
          (r.codeFrame level elseFollows head).2 :=
  renderCode_some_of_visit (hr.visit _ _ _)

theorem Unvisited.renderComment_some {head : Remark} (h : head.buffered = true) (block : Block) :
    r.renderComment level ⟨head, some block⟩ =
      (r.renderBlock (level + 1) block).map fun inner =>
        r.layout.indent level ++ (r.commentFrame level head).1 ++ inner ++ "\n" ++
          r.layout.indent level ++ (r.commentFrame level head).2 := by
  rw [renderComment_eq, hr.visit]
  show (if head.buffered then _ else _) = _
  rw [if_pos h]

theorem Unvisited.renderComment_hidden {comment : Comment} (h : comment.buffered = false) :
    r.renderComment level comment = .ok "" := by
  rw [renderComment_eq, hr.visit]
  show (if comment.buffered then _ else _) = _
  rw [if_neg (by simp [h])]
  rfl

end

end Renderer

namespace Engine

/-- The markup of a template, if no node of its document stands inside more than a number of
others. -/
def attempt (e : Engine) (depth : Nat) (name source : String) : Option (Except Error String) :=
  match parse e.renderer.layout source with
  | .error error => some (.error (Error.ofParse name error))
  | .ok root => (e.renderer.attempt depth 0 false (.group root)).map (Except.mapError .render)

/-- What is found within a bound is the markup of a template. -/
theorem renderNamed_of_attempt {e : Engine} {name source : String} {out : Except Error String}
    (depth : Nat) (h : e.attempt depth name source = some out) :
    e.renderNamed name source = out := by
  rw [attempt] at h
  rw [renderNamed]
  cases hroot : parse e.renderer.layout source with
  | error error =>
    rw [hroot] at h
    exact Option.some.inj h
  | ok root =>
    rw [hroot] at h
    obtain ⟨markup, hmarkup, rfl⟩ := Option.map_eq_some_iff.1 h
    show (e.renderer.render root).mapError _ = _
    rw [Renderer.render_of_attempt depth hmarkup]

theorem render_of_attempt {e : Engine} {source : String} {out : Except Error String}
    (depth : Nat) (h : e.attempt depth inputName source = some out) : e.render source = out :=
  renderNamed_of_attempt depth h

end Engine

end Offside
