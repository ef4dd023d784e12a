import Mathlib.Data.List.Chain
import Offside.Proofs.Document.Codes
import Offside.Proofs.Document.Rewriting
import Offside.Proofs.Markup.Siblings

/-!
# Visiting while rendering

Visitors revise a node right before it is rendered. If they revise it without looking at
anything else, one could as well rewrite the whole document beforehand and render it without
visitors. There is one difference: a branch of a conditional is closed unless the next node
goes on with the conditional, and when this is decided the next node has not been visited.

A node is rendered as if another branch followed, and then closed if it has to be
(`RevisesCodes.renderNode_eq_closed`). So what closes branches is all that differs among the
nodes of a block: `renderBlock_visited` has both ways side by side, and
`visited_branch_left_open` is a conditional that stays open. `Node.rows` is all lists of
siblings that are rendered. Where what is decided in them is the same for the next node as it
was and as it becomes (`Settled`), it makes no difference when a document is rewritten
(`Revises.renderBlock_rewrite`).
-/

set_option autoImplicit false

namespace Offside

open Markup (joinLines)
open Renderer (continuesConditional directive selfClosingTags)

/-! ### Rows of nodes -/

mutual

/-- The lists of siblings inside a node that are rendered if it is rewritten. -/
def Node.rows (ρ : Rewriting) : Node → List (List Node)
  | .group block => block.rows ρ
  | .tag tag => tag.rows ρ
  | .text _ => []
  | .code code => code.rows ρ
  | .comment comment => comment.rows ρ
  | .doctype _ => []
  | .filter filter => filter.rows ρ

/-- Those inside a tag. A self-closing tag has none. -/
def Tag.rows (ρ : Rewriting) : Tag → List (List Node)
  | ⟨element, text, code, children⟩ =>
    if (ρ.tag ⟨element, text, code, children⟩).name ∈ selfClosingTags then []
    else
      (match code with
        | some code => code.rows ρ
        | none => []) ++ children.rows ρ

/-- Those below code. -/
def Code.rows (ρ : Rewriting) : Code → List (List Node)
  | ⟨_, block⟩ =>
    match block with
    | some block => block.rows ρ
    | none => []

/-- Those below a comment. A hidden comment has none. -/
def Comment.rows (ρ : Rewriting) : Comment → List (List Node)
  | ⟨remark, block⟩ =>
    match block with
    | some block => if remark.buffered then block.rows ρ else []
    | none => []

/-- Those inside of what a filter is applied to. -/
def Filter.rows (ρ : Rewriting) : Filter → List (List Node)
  | ⟨_, body⟩ => body.rows ρ

/-- The nodes of a block, and the lists of siblings inside them. -/
def Block.rows (ρ : Rewriting) : Block → List (List Node)
  | ⟨_, children⟩ => children :: Node.rowsInside ρ children

/-- The lists of siblings inside some nodes. -/
def Node.rowsInside (ρ : Rewriting) : List Node → List (List Node)
  | [] => []
  | node :: nodes => node.rows ρ ++ Node.rowsInside ρ nodes

end

/-- Whether `b` goes on with a conditional is the same before and after it is rewritten, if
this matters to `a` in front of it. -/
def Node.Foresees (ρ : Rewriting) (a b : Node) : Prop :=
  (a.rewrite ρ).isBranch = true → continuesConditional (b.rewrite ρ) = continuesConditional b

instance (ρ : Rewriting) : DecidableRel (Node.Foresees ρ) := fun a b =>
  inferInstanceAs (Decidable ((a.rewrite ρ).isBranch = true →
    continuesConditional (b.rewrite ρ) = continuesConditional b))

/-- In all of some rows, nodes foresee what is behind them. -/
def Settled (ρ : Rewriting) (rows : List (List Node)) : Prop :=
  ∀ row ∈ rows, row.IsChain (Node.Foresees ρ)

instance (ρ : Rewriting) (rows : List (List Node)) : Decidable (Settled ρ rows) :=
  inferInstanceAs (Decidable (∀ row ∈ rows, row.IsChain (Node.Foresees ρ)))

theorem Settled.of_mem {ρ : Rewriting} {nodes : List Node} {node : Node} (hnode : node ∈ nodes)
    (h : Settled ρ (Node.rowsInside ρ nodes)) : Settled ρ (node.rows ρ) := by
  induction nodes with
  | nil => cases hnode
  | cons first nodes ih =>
    obtain ⟨hfirst, hothers⟩ := List.forall_mem_append.1 h
    rcases List.mem_cons.1 hnode with rfl | hnode
    · exact hfirst
    · exact ih hnode hothers

namespace Renderer

/-- Renders nodes one by one. `continues` tells which nodes are taken to go on with a
conditional, and `render` is told whether the next node is. -/
def renderEach (render : Bool → Node → Except RenderError String) (continues : Node → Bool) :
    List Node → Except RenderError (List String)
  | [] => return []
  | node :: nodes => do
    let first ← render (nodes.head?.any continues) node
    let others ← renderEach render continues nodes
    return first :: others

theorem renderAhead_eq_renderEach (r : Renderer) (level : Nat) (nodes : List Node) :
    r.renderAhead level false nodes =
      renderEach (r.renderNode level) continuesConditional nodes := by
  induction nodes with
  | nil => rfl
  | cons node nodes ih => rw [renderAhead, renderEach, ih, getD_continuesConditional]

/-- Nodes that are rewritten beforehand are looked at as they become. -/
theorem renderAhead_rewriteAll (r : Renderer) (ρ : Rewriting) (level : Nat) (nodes : List Node) :
    r.renderAhead level false (Node.rewriteAll ρ nodes) =
      renderEach (fun elseFollows node => r.renderNode level elseFollows (node.rewrite ρ))
        (continuesConditional ∘ Node.rewrite ρ) nodes := by
  induction nodes with
  | nil => rfl
  | cons node nodes ih =>
    have hnext : (Node.rewriteAll ρ nodes).head?.any continuesConditional =
        nodes.head?.any (continuesConditional ∘ Node.rewrite ρ) := by
      cases nodes <;> rfl
    rw [Node.rewriteAll, renderAhead, renderEach, getD_continuesConditional, hnext, ih]

/-! ### What closes branches -/

/-- What stands behind a node that becomes a branch once it is rewritten, unless another branch
follows. -/
def closing (r : Renderer) (ρ : Rewriting) (level : Nat) (elseFollows : Bool) (node : Node) :
    String :=
  if (node.rewrite ρ).isBranch && !elseFollows then r.closer level else ""

/-- What stands behind each of some nodes once they are rewritten, if the nodes that `continues`
tells go on with a conditional. -/
def closings (r : Renderer) (ρ : Rewriting) (level : Nat) (continues : Node → Bool) :
    List Node → List String
  | [] => []
  | node :: nodes =>
    r.closing ρ level (nodes.head?.any continues) node :: r.closings ρ level continues nodes

/-- If each node is rendered as if another branch followed, and then closed, what nodes are
taken to go on with a conditional matters only to what closes them. -/
theorem renderEach_eq_closed {r : Renderer} {ρ : Rewriting} {level : Nat}
    {render : Bool → Node → Except RenderError String} (nodes : List Node)
    (h : ∀ node ∈ nodes, ∀ elseFollows, render elseFollows node =
      (render true node).map (· ++ r.closing ρ level elseFollows node))
    (continues : Node → Bool) :
    renderEach render continues nodes = (nodes.mapM (render true)).map fun parts =>
      List.zipWith (· ++ ·) parts (r.closings ρ level continues nodes) := by
  induction nodes with
  | nil => rfl
  | cons node nodes ih =>
    obtain ⟨hnode, hnodes⟩ := List.forall_mem_cons.1 h
    rw [renderEach, ih hnodes, hnode, List.mapM_cons]
    cases render true node with
    | error e => rfl
    | ok first =>
      cases nodes.mapM (render true) with
      | error e => rfl
      | ok others => rfl

/-- Where nodes foresee what is behind them, it does not matter whether the next node is
looked at before or after it is rewritten. -/
theorem closings_of_isChain (r : Renderer) {ρ : Rewriting} (level : Nat) {nodes : List Node}
    (h : nodes.IsChain (Node.Foresees ρ)) :
    r.closings ρ level continuesConditional nodes =
      r.closings ρ level (continuesConditional ∘ Node.rewrite ρ) nodes := by
  induction nodes with
  | nil => rfl
  | cons node nodes ih =>
    have hnode : r.closing ρ level (nodes.head?.any continuesConditional) node =
        r.closing ρ level (nodes.head?.any (continuesConditional ∘ Node.rewrite ρ)) node := by
      cases nodes with
      | nil => rfl
      | cons next nodes =>
        cases hbranch : (node.rewrite ρ).isBranch with
        | true =>
          have hnext := (List.isChain_cons_cons.1 h).1 hbranch
          exact congrArg (r.closing ρ level · node) hnext.symm
        | false =>
          rw [closing, closing, hbranch]
          rfl
    rw [closings, closings, hnode, ih h.tail]

theorem map_append_empty (x : Except RenderError String) : x.map (· ++ "") = x := by
  cases x <;> simp [Except.map]

/-- Without visitors, a node is rendered as if another branch followed, and then closed. -/
theorem Unvisited.renderNode_eq_closed {r : Renderer} (hr : r.Unvisited) (ρ : Rewriting)
    (level : Nat) (node : Node) (elseFollows : Bool) :
    r.renderNode level elseFollows (node.rewrite ρ) =
      (r.renderNode level true (node.rewrite ρ)).map
        (· ++ r.closing ρ level elseFollows node) := by
  unfold closing
  cases hbranch : (node.rewrite ρ).isBranch with
  | false =>
    rw [renderNode_of_not_isBranch hr level hbranch,
      renderNode_of_not_isBranch hr level hbranch true]
    exact (map_append_empty _).symm
  | true =>
    cases elseFollows with
    | false => exact renderNode_of_isBranch hr level hbranch
    | true => exact (map_append_empty _).symm

/-! ### Revising renderers -/

/-- The renderer without its visitors. -/
def bare (r : Renderer) : Renderer :=
  { r with visitors := fun _ => [] }

theorem unvisited_bare (r : Renderer) : r.bare.Unvisited :=
  fun _ => rfl

/-- A renderer that revises tags as a rewriting does, and nothing else but code. -/
structure Revises (r : Renderer) (ρ : Rewriting) : Prop where
  others : ∀ kind, kind ≠ .tag → kind ≠ .code → r.visitors kind = []
  tag : ∀ t : Tag, r.visit .tag Visitor.tag t = .ok ⟨ρ.tag t, t.text, t.code, t.children⟩

/-- Some code that a renderer revises as a rewriting does. -/
def RevisesCodes (r : Renderer) (ρ : Rewriting) (codes : List Code) : Prop :=
  ∀ c ∈ codes, r.visit .code Visitor.code c = .ok ⟨ρ.code c, c.block⟩

namespace Revises

variable {r : Renderer} {ρ : Rewriting} (hr : r.Revises ρ)

include hr

theorem visit {kind : Node.Kind} (htag : kind ≠ .tag) (hcode : kind ≠ .code) {α : Type}
    (see : Visitor → α → Except VisitError α) (node : α) : r.visit kind see node = .ok node :=
  visit_of_no_visitors (hr.others kind htag hcode) see node

theorem renderText_bare (level : Nat) (t : Text) :
    r.renderText level t = r.bare.renderText level t := by
  rw [renderText, hr.visit (by decide) (by decide)]
  rfl

theorem tagAround_bare (level : Nat) (head : Element) (text : Option Text) (nested : Bool)
    (code : Option (Except RenderError String)) (below : Except RenderError String) :
    r.tagAround level head text nested code below =
      r.bare.tagAround level head text nested code below := by
  cases text with
  | none => rfl
  | some text =>
    show (if head.name ∈ selfClosingTags then _ else code.elim _ _ >>= fun _ =>
      (if text.lines = [] then _ else (r.renderText 0 text).map _) >>= _) = _
    rw [hr.renderText_bare]
    rfl

/-- Tags are rendered alike if what is inside them is, or if they are self-closing. -/
theorem renderTag_of_parts (level : Nat) {element : Element} {text : Option Text}
    {code code' : Option Code} (children : Block)
    (hcode : (ρ.tag ⟨element, text, code, children⟩).name ∉ selfClosingTags →
      code.map (r.renderCode 0 false) = code'.map (r.bare.renderCode 0 false))
    (hchildren : (ρ.tag ⟨element, text, code, children⟩).name ∉ selfClosingTags →
      r.renderBlock (level + 1) children = r.bare.renderBlock (level + 1) (children.rewrite ρ)) :
    r.renderTag level ⟨element, text, code, children⟩ =
      r.bare.renderTag level
        ⟨ρ.tag ⟨element, text, code, children⟩, text, code', children.rewrite ρ⟩ := by
  have hempty : (children.rewrite ρ).children.isEmpty = children.children.isEmpty := by
    obtain ⟨line, children⟩ := children
    cases children <;> rfl
  rw [renderTag_eq, hr.tag, r.unvisited_bare.renderTag_eq, hempty]
  show r.tagAround level _ text (!children.children.isEmpty) _ _ = _
  rw [hr.tagAround_bare]
  by_cases hname : (ρ.tag ⟨element, text, code, children⟩).name ∈ selfClosingTags
  · show (if _ then _ else _) = (if _ then _ else _)
    rw [if_pos hname, if_pos hname]
  · rw [hcode hname, hchildren hname]

end Revises

/-- Code is rendered as if another branch followed, and then closed. -/
theorem renderCode_eq_closed {r : Renderer} {ρ : Rewriting} (level : Nat) {c : Code}
    (h : r.visit .code Visitor.code c = .ok ⟨ρ.code c, c.block⟩) (elseFollows : Bool) :
    r.renderCode level elseFollows c =
      (r.renderCode level true c).map (· ++ r.closing ρ level elseFollows (.code c)) := by
  obtain ⟨head, block⟩ := c
  cases block with
  | none =>
    rw [renderCode_none_of_visit h, renderCode_none_of_visit h]
    exact (map_append_empty _).symm
  | some block =>
    rw [renderCode_some_of_visit h, renderCode_some_of_visit h]
    unfold closing
    have hrewrite : (Node.rewrite ρ (.code ⟨head, some block⟩)).isBranch =
        (Code.mk (ρ.code ⟨head, some block⟩) (some block)).isBranch := rfl
    cases hbranch : (Code.mk (ρ.code ⟨head, some block⟩) (some block)).isBranch with
    | false =>
      rw [hrewrite, hbranch, codeFrame_of_not_isBranch r level hbranch,
        codeFrame_of_not_isBranch r level hbranch true]
      exact (map_append_empty _).symm
    | true =>
      rw [hrewrite, hbranch, codeFrame_of_isBranch r level elseFollows hbranch,
        codeFrame_of_isBranch r level true hbranch]
      cases elseFollows <;> cases r.renderBlock (level + 1) block <;> simp [Except.map]

theorem RevisesCodes.renderNode_eq_closed {r : Renderer} {ρ : Rewriting} {node : Node}
    (h : r.RevisesCodes ρ node.codes) (level : Nat) (elseFollows : Bool) :
    r.renderNode level elseFollows node =
      (r.renderNode level true node).map (· ++ r.closing ρ level elseFollows node) := by
  cases node with
  | code c => exact renderCode_eq_closed level (h c c.mem_codes) elseFollows
  | _ =>
    refine (r.renderNode_of_not_code level elseFollows true ?_).trans (map_append_empty _).symm
    exact nofun

/-! ### Rewriting beforehand -/

mutual

theorem Revises.renderNode_rewrite {r : Renderer} {ρ : Rewriting} (hr : r.Revises ρ)
    (level : Nat) (elseFollows : Bool) :
    (node : Node) → r.RevisesCodes ρ node.codes → Settled ρ (node.rows ρ) →
      r.renderNode level elseFollows node = r.bare.renderNode level elseFollows (node.rewrite ρ)
  | .group block => fun hcodes hsettled => by
    rw [renderNode_group, Node.rewrite, renderNode_group]
    exact hr.renderBlock_rewrite level block hcodes hsettled
  | .tag tag => fun hcodes hsettled => by
    rw [renderNode_tag, Node.rewrite, renderNode_tag]
    exact hr.renderTag_rewrite level tag hcodes hsettled
  | .text text => fun _ _ => by
    rw [renderNode_text, Node.rewrite, renderNode_text]
    exact hr.renderText_bare level text
  | .code code => hr.renderCode_rewrite level elseFollows code
  | .comment comment => fun hcodes hsettled => by
    rw [renderNode_comment, Node.rewrite, renderNode_comment]
    exact hr.renderComment_rewrite level comment hcodes hsettled
  | .doctype doctype => fun _ _ => by
    rw [renderNode_doctype, Node.rewrite, renderNode_doctype, renderDoctype,
      hr.visit (by decide) (by decide)]
    rfl
  | .filter filter => fun hcodes hsettled => by
    rw [renderNode_filter, Node.rewrite, renderNode_filter]
    exact hr.renderFilter_rewrite level filter hcodes hsettled

theorem Revises.renderTag_rewrite {r : Renderer} {ρ : Rewriting} (hr : r.Revises ρ)
    (level : Nat) : (tag : Tag) → r.RevisesCodes ρ tag.codes → Settled ρ (tag.rows ρ) →
      r.renderTag level tag = r.bare.renderTag level (tag.rewrite ρ)
  | ⟨element, text, none, children⟩ => fun hcodes hsettled => by
    refine hr.renderTag_of_parts level children (fun _ => rfl) fun hname => ?_
    rw [Tag.rows, if_neg hname] at hsettled
    exact hr.renderBlock_rewrite (level + 1) children hcodes hsettled
  | ⟨element, text, some code, children⟩ => fun hcodes hsettled => by
    refine hr.renderTag_of_parts level children (fun hname => ?_) fun hname => ?_
    · rw [Tag.rows, if_neg hname] at hsettled
      exact congrArg some (hr.renderCode_rewrite 0 false code
        (fun c hc => hcodes c (List.mem_append_left _ hc))
        fun row hrow => hsettled row (List.mem_append_left _ hrow))
    · rw [Tag.rows, if_neg hname] at hsettled
      exact hr.renderBlock_rewrite (level + 1) children
        (fun c hc => hcodes c (List.mem_append_right _ hc))
        fun row hrow => hsettled row (List.mem_append_right _ hrow)

theorem Revises.renderCode_rewrite {r : Renderer} {ρ : Rewriting} (hr : r.Revises ρ)
    (level : Nat) (elseFollows : Bool) :
    (code : Code) → r.RevisesCodes ρ code.codes → Settled ρ (code.rows ρ) →
      r.renderCode level elseFollows code = r.bare.renderCode level elseFollows (code.rewrite ρ)
  | ⟨head, none⟩ => fun hcodes _ => by
    rw [renderCode_none_of_visit (hcodes _ List.mem_cons_self), Code.rewrite,
      r.unvisited_bare.renderCode_none]
    rfl
  | ⟨head, some block⟩ => fun hcodes hsettled => by
    have hblock := hr.renderBlock_rewrite (level + 1) block
      (fun c hc => hcodes c (List.mem_cons_of_mem _ hc)) hsettled
    rw [renderCode_some_of_visit (hcodes _ List.mem_cons_self), Code.rewrite,
      r.unvisited_bare.renderCode_some, hblock]
    rfl

theorem Revises.renderComment_rewrite {r : Renderer} {ρ : Rewriting} (hr : r.Revises ρ)
    (level : Nat) :
    (comment : Comment) → r.RevisesCodes ρ comment.codes → Settled ρ (comment.rows ρ) →
      r.renderComment level comment = r.bare.renderComment level (comment.rewrite ρ)
  | ⟨remark, none⟩ => fun _ _ => by
    rw [renderComment_eq, hr.visit (by decide) (by decide), Comment.rewrite, renderComment_eq,
      r.unvisited_bare.visit]
    rfl
  | ⟨remark, some block⟩ => fun hcodes hsettled => by
    rw [renderComment_eq, hr.visit (by decide) (by decide), Comment.rewrite]
    show (if remark.buffered then (r.renderBlock (level + 1) block).map _ else _) = _
    cases hbuffered : remark.buffered with
    | false =>
      rw [r.unvisited_bare.renderComment_hidden level hbuffered]
      rfl
    | true =>
      rw [Comment.rows, if_pos hbuffered] at hsettled
      rw [hr.renderBlock_rewrite (level + 1) block hcodes hsettled,
        r.unvisited_bare.renderComment_some level hbuffered]
      rfl

theorem Revises.renderFilter_rewrite {r : Renderer} {ρ : Rewriting} (hr : r.Revises ρ)
    (level : Nat) :
    (filter : Filter) → r.RevisesCodes ρ filter.codes → Settled ρ (filter.rows ρ) →
      r.renderFilter level filter = r.bare.renderFilter level (filter.rewrite ρ)
  | ⟨directive, body⟩ => fun hcodes hsettled => by
    rw [renderFilter_eq, hr.visit (by decide) (by decide), Filter.rewrite, renderFilter_eq,
      r.unvisited_bare.visit]
    show (r.findFilter directive.name >>= fun _ => (r.renderNode (level + 1) false body).map _) = _
    rw [hr.renderNode_rewrite (level + 1) false body hcodes hsettled]
    rfl

/-- If a document is settled, it is the same to rewrite it beforehand. -/
theorem Revises.renderBlock_rewrite {r : Renderer} {ρ : Rewriting} (hr : r.Revises ρ)
    (level : Nat) :
    (block : Block) → r.RevisesCodes ρ block.codes → Settled ρ (block.rows ρ) →
      r.renderBlock level block = r.bare.renderBlock level (block.rewrite ρ)
  | ⟨line, children⟩ => fun hcodes hsettled => by
    obtain ⟨hchain, hinside⟩ := List.forall_mem_cons.1 hsettled
    have hclosed := renderEach_eq_closed children fun node _ =>
      r.unvisited_bare.renderNode_eq_closed ρ level node
    rw [renderBlock_eq, Block.rewrite, renderBlock_eq, renderAhead_rewriteAll,
      hr.renderAhead_eq level children hcodes hinside, hclosed, hclosed,
      closings_of_isChain _ level hchain]

/-- If what is inside of some nodes is settled, each of them is rendered as it is rewritten,
but by what stood behind it before. -/
theorem Revises.renderAhead_eq {r : Renderer} {ρ : Rewriting} (hr : r.Revises ρ)
    (level : Nat) : (nodes : List Node) → r.RevisesCodes ρ (Node.codesOf nodes) →
      Settled ρ (Node.rowsInside ρ nodes) →
      r.renderAhead level false nodes =
        renderEach (fun elseFollows node => r.bare.renderNode level elseFollows (node.rewrite ρ))
          continuesConditional nodes
  | [] => fun _ _ => rfl
  | node :: nodes => fun hcodes hsettled => by
    rw [renderAhead, renderEach, getD_continuesConditional,
      hr.renderNode_rewrite level _ node (fun c hc => hcodes c (List.mem_append_left _ hc))
        fun row hrow => hsettled row (List.mem_append_left _ hrow),
      hr.renderAhead_eq level nodes (fun c hc => hcodes c (List.mem_append_right _ hc))
        fun row hrow => hsettled row (List.mem_append_right _ hrow)]

end

theorem renderBlock_of_renderAhead {r : Renderer} {level : Nat} (line : Nat) {nodes : List Node}
    {opened : Except RenderError (List String)} {close : List String → List String}
    (h : r.renderAhead level false nodes = opened.map close) :
    r.renderBlock level ⟨line, nodes⟩ = opened.map fun parts => joinLines (close parts) := by
  rw [renderBlock_eq, h]
  cases opened <;> rfl

/-! ### One visitor of code -/

/-- Without its visitors, a renderer is any that has the same layout and filters and no
visitors. -/
theorem Unvisited.bare_eq {r visited : Renderer} (hr : r.Unvisited)
    (hlayout : visited.layout = r.layout) (hfilters : visited.filters = r.filters) :
    visited.bare = r := by
  obtain ⟨layout, visitors, filters⟩ := r
  have hvisitors : visitors = fun _ => [] := funext hr
  rw [bare, hlayout, hfilters, hvisitors]

/-- A visitor that is the only one of code sees the code as it is. -/
theorem Unvisited.visit_registerVisitor {r : Renderer} (hr : r.Unvisited) {visitor : Visitor}
    {c revised : Code} (h : visitor.code c = .ok revised) :
    (r.registerVisitor "code" visitor).2.visit .code Visitor.code c = .ok revised := by
  show ((r.visitors .code ++ [visitor]).foldlM (fun c (v : Visitor) => v.code c) c).mapError _ = _
  rw [hr, List.nil_append, List.foldlM_cons, h]
  rfl

theorem Unvisited.revises_registerVisitor {r : Renderer} (hr : r.Unvisited) (visitor : Visitor)
    (f : Code → Statement) : (r.registerVisitor "code" visitor).2.Revises { code := f } where
  others := by
    intro kind _ hcode
    show (if kind = .code then _ else r.visitors kind) = []
    rw [if_neg hcode, hr]
  tag := by
    intro t
    obtain ⟨element, text, code, children⟩ := t
    exact visit_of_no_visitors (hr .tag) Visitor.tag _

/-- A visitor of code that looks at nothing else, and the code rewritten beforehand. Either way
the nodes of a block are rendered as if other branches followed, and those that become branches
are closed by what is behind them: by the next node as it was while rendering, and by the next
node as it becomes beforehand. If what is inside of the nodes is settled, there is no other
difference, and if the block is settled there is none. -/
theorem renderBlock_visited {r : Renderer} (hr : r.Unvisited) {visitor : Visitor}
    {f : Code → Statement} {block : Block}
    (hvisitor : ∀ c ∈ block.codes, visitor.code c = .ok ⟨f c, c.block⟩) (level : Nat) :
    let ρ : Rewriting := { code := f }
    let visited := (r.registerVisitor "code" visitor).2
    let closedBy (continues : Node → Bool) (parts : List String) : String :=
      joinLines (List.zipWith (· ++ ·) parts (r.closings ρ level continues block.children))
    visited.renderBlock level block =
        (block.children.mapM (visited.renderNode level true)).map
          (closedBy continuesConditional) ∧
      r.renderBlock level (block.rewrite ρ) =
        (block.children.mapM fun node => r.renderNode level true (node.rewrite ρ)).map
          (closedBy (continuesConditional ∘ Node.rewrite ρ)) ∧
      (Settled ρ (Node.rowsInside ρ block.children) → ∀ node ∈ block.children,
        visited.renderNode level true node = r.renderNode level true (node.rewrite ρ)) ∧
      (Settled ρ (block.rows ρ) →
        visited.renderBlock level block = r.renderBlock level (block.rewrite ρ)) := by
  intro ρ visited closedBy
  have hrevises : visited.Revises ρ := hr.revises_registerVisitor visitor f
  have hcodes : visited.RevisesCodes ρ block.codes := fun c hc =>
    hr.visit_registerVisitor (hvisitor c hc)
  have hbare : visited.bare = r := hr.bare_eq rfl rfl
  obtain ⟨line, children⟩ := block
  have hnode : ∀ node ∈ children, visited.RevisesCodes ρ node.codes := fun node hmem c hc =>
    hcodes c (Node.mem_codesOf hmem hc)
  refine ⟨?_, ?_, ?_, ?_⟩
  · -- The layout is the same, and so is what closes a branch.
    have hclosed := renderEach_eq_closed (r := r) children
      (fun node hmem => (hnode node hmem).renderNode_eq_closed level) continuesConditional
    exact renderBlock_of_renderAhead line
      ((visited.renderAhead_eq_renderEach level children).trans hclosed)
  · have hclosed := renderEach_eq_closed children
      (fun node _ => hr.renderNode_eq_closed ρ level node) (continuesConditional ∘ Node.rewrite ρ)
    exact renderBlock_of_renderAhead line
      ((r.renderAhead_rewriteAll ρ level children).trans hclosed)
  · intro hinside node hmem
    have hrewrite := hrevises.renderNode_rewrite level true node (hnode node hmem)
      (Settled.of_mem hmem hinside)
    rw [hbare] at hrewrite
    exact hrewrite
  · intro hsettled
    have hrewrite := hrevises.renderBlock_rewrite level ⟨line, children⟩ hcodes hsettled
    rw [hbare] at hrewrite
    exact hrewrite

/-- A visitor that brings a conditional into its usual form. The branch behind it is not
changed, so it is known to be one. -/
theorem renderBlock_visited_conditional :
    let f (c : Code) : Statement :=
      { c.toStatement with
        expression := if c.expression = "when ($a):" then "if ($a):" else c.expression }
    let visitor : Visitor := { code := fun c => .ok ⟨f c, c.block⟩ }
    let block : Block := ⟨1,
      [.code ⟨{ line := 1, expression := "when ($a):", buffered := false },
        some ⟨2, [.text ⟨2, ["one"]⟩]⟩⟩,
       .code ⟨{ line := 3, expression := "else:", buffered := false },
        some ⟨4, [.text ⟨4, ["two"]⟩]⟩⟩]⟩
    let r : Renderer := {}
    r.Unvisited ∧ (∀ c ∈ block.codes, visitor.code c = .ok ⟨f c, c.block⟩) ∧
      Settled { code := f } (block.rows { code := f }) ∧
      (r.registerVisitor "code" visitor).2.renderBlock 0 block =
        .ok "<?php if ($a): ?>\n  one\n<?php else: ?>\n  two\n<?php endif; ?>" := by
  intro f visitor block r
  have hr : r.Unvisited := fun _ => rfl
  have hvisitor : ∀ c ∈ block.codes, visitor.code c = .ok ⟨f c, c.block⟩ := fun _ _ => rfl
  have hsettled : Settled { code := f } (block.rows { code := f }) := by decide +kernel
  obtain ⟨-, -, -, hrewrite⟩ := renderBlock_visited hr hvisitor 0
  refine ⟨hr, hvisitor, hsettled, (hrewrite hsettled).trans ?_⟩
  exact renderNode_of_attempt 4 (by decide +kernel)

/-- A visitor that makes two conditionals of the branches of one. The second one stands where
a further branch stood, so the first one is not closed; rewritten beforehand, it is. -/
theorem visited_branch_left_open :
    let f (c : Code) : Statement := { c.toStatement with expression := "if ($b):" }
    let visitor : Visitor := { code := fun c => .ok ⟨f c, c.block⟩ }
    let block : Block := ⟨1,
      [.code ⟨{ line := 1, expression := "if ($a):", buffered := false },
        some ⟨2, [.text ⟨2, ["one"]⟩]⟩⟩,
       .code ⟨{ line := 3, expression := "else:", buffered := false },
        some ⟨4, [.text ⟨4, ["two"]⟩]⟩⟩]⟩
    let r : Renderer := {}
    (r.registerVisitor "code" visitor).2.render block =
        .ok "<?php if ($b): ?>\n  one\n<?php if ($b): ?>\n  two\n<?php endif; ?>" ∧
      r.render (block.rewrite { code := f }) =
        .ok ("<?php if ($b): ?>\n  one\n<?php endif; ?>\n" ++
          "<?php if ($b): ?>\n  two\n<?php endif; ?>") := by
  refine ⟨?_, ?_⟩
  · exact render_of_attempt 4 (by decide +kernel)
  · exact render_of_attempt 4 (by decide +kernel)

end Renderer

end Offside
