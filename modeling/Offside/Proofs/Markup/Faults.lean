import Offside.Proofs.Markup.Siblings

/-!
# Where rendering fails

A renderer without visitors refuses two kinds of nodes (`Renderer.fault?`): document types
of unknown versions, and filters that are not registered. But it does not come to all nodes
of a document: what stands inside a self-closing tag or a hidden comment is left out.

`Block.places` is all nodes of a document, each with the nodes around it, in the order in
which they are rendered. `render_eq_error_iff_first_fault` states that rendering fails if
and only if a node with a fault has none of the two around it (`Place.isShown`), and that
the error is the one of the first such node.
-/

set_option autoImplicit false

namespace Offside

open Offside.Character (trimBlanks)
open Renderer (selfClosingTags)

/-! ### Places of a document -/

/-- A node in a document, with the nodes around it from the inside out. -/
structure Place where
  node : Node
  around : List Node := []

/-- The place, seen from outside of a node around it. -/
def Place.inside (outer : Node) (p : Place) : Place :=
  { p with around := p.around ++ [outer] }

/-- A node, and behind it the places inside it. -/
def Node.enclosing (node : Node) (inner : List Place) : List Place :=
  { node } :: inner.map (Place.inside node)

mutual

/-- All nodes inside a node, in the order in which they are rendered. -/
def Node.inner : Node → List Place
  | .group block => block.places
  | .tag tag => tag.inner
  | .text _ => []
  | .code code => code.inner
  | .comment comment => comment.inner
  | .doctype _ => []
  | .filter filter => filter.inner

/-- All nodes inside a tag: the code on its line, its text, and the block below. -/
def Tag.inner : Tag → List Place
  | ⟨_, text, code, children⟩ =>
    (match code with
      | some code => (Node.code code).enclosing code.inner
      | none => []) ++
      (text.toList.map fun text => { node := .text text }) ++ children.places

/-- All nodes below code. -/
def Code.inner : Code → List Place
  | ⟨_, block⟩ =>
    match block with
    | some block => block.places
    | none => []

/-- All nodes below a comment. -/
def Comment.inner : Comment → List Place
  | ⟨_, block⟩ =>
    match block with
    | some block => block.places
    | none => []

/-- The node that a filter is applied to, and all nodes inside it. -/
def Filter.inner : Filter → List Place
  | ⟨_, body⟩ => body.enclosing body.inner

/-- All nodes of a block, each in front of the nodes inside it. -/
def Block.places : Block → List Place
  | ⟨_, children⟩ => Node.placesOf children

/-- Some nodes, each in front of the nodes inside it. -/
def Node.placesOf : List Node → List Place
  | [] => []
  | node :: nodes => node.enclosing node.inner ++ Node.placesOf nodes

end

/-- Whether what stands inside a node has no markup: in self-closing tags and in hidden
comments. -/
def Node.hides : Node → Bool
  | .tag t => t.name ∈ selfClosingTags
  | .comment c => !c.buffered
  | _ => false

/-- Whether no node around a place hides it. -/
def Place.isShown (p : Place) : Bool :=
  p.around.all fun outer => !outer.hides

theorem Place.isShown_inside (outer : Node) (p : Place) :
    (p.inside outer).isShown = (p.isShown && !outer.hides) := by
  simp [isShown, inside]

namespace Renderer

/-! ### Faults -/

/-- What is wrong with a node by itself. The version of a document type is taken without
blanks around it, and the default one if nothing is left. -/
def fault? (r : Renderer) : Node → Option RenderError
  | .doctype d =>
    let version := trimBlanks d.version
    if (if version = "" then Doctype.defaultVersion else version) ∈
        Doctype.declarations.map Prod.fst then none
    else some (.unknownDoctype version)
  | .filter f =>
    if f.name ∈ r.filters.map Prod.fst then none else some (.unregisteredFilter f.name)
  | _ => none

/-- What is wrong at a place, if it is shown. -/
def faultAt? (r : Renderer) (p : Place) : Option RenderError :=
  if p.isShown then r.fault? p.node else none

/-- The first thing that is wrong at some places. -/
def firstFault? (r : Renderer) (places : List Place) : Option RenderError :=
  places.findSome? r.faultAt?

theorem faultAt?_eq_some_iff {r : Renderer} {p : Place} {e : RenderError} :
    r.faultAt? p = some e ↔ p.isShown = true ∧ r.fault? p.node = some e := by
  simp [faultAt?]

theorem faultAt?_eq_none_iff {r : Renderer} {p : Place} :
    r.faultAt? p = none ↔ (p.isShown = true → r.fault? p.node = none) := by
  simp [faultAt?]

theorem firstFault?_append (r : Renderer) (xs ys : List Place) :
    r.firstFault? (xs ++ ys) = (r.firstFault? xs).or (r.firstFault? ys) :=
  List.findSome?_append

/-- Inside a node that hides them, places have no faults; inside any other node they have
those they have. -/
theorem firstFault?_inside (r : Renderer) (outer : Node) (places : List Place) :
    r.firstFault? (places.map (Place.inside outer)) =
      if outer.hides then none else r.firstFault? places := by
  have hfault : (r.faultAt? ∘ Place.inside outer) =
      fun p => if outer.hides then none else r.faultAt? p := by
    funext p
    show (if (p.inside outer).isShown then r.fault? p.node else none) = _
    rw [Place.isShown_inside]
    cases outer.hides <;> simp [faultAt?]
  rw [firstFault?, List.findSome?_map, hfault]
  cases outer.hides with
  | true => simp
  | false => rfl

/-- A node is looked at before what is inside it. -/
theorem firstFault?_enclosing (r : Renderer) (node : Node) (inner : List Place) :
    r.firstFault? (node.enclosing inner) =
      (r.fault? node).or (if node.hides then none else r.firstFault? inner) := by
  have hnode : r.firstFault? [{ node }] = r.fault? node := by
    show ([node].findSome? fun node => r.fault? node) = r.fault? node
    cases h : r.fault? node <;> simp [h]
  rw [Node.enclosing, ← List.singleton_append, firstFault?_append, firstFault?_inside, hnode]

/-! ### Failures -/

/-- What is wrong with a result, if anything is. -/
def failure? {α : Type} : Except RenderError α → Option RenderError
  | .ok _ => none
  | .error e => some e

theorem failure?_eq_some_iff {α : Type} {x : Except RenderError α} {e : RenderError} :
    failure? x = some e ↔ x = .error e := by
  cases x <;> simp [failure?]

theorem failure?_map {α β : Type} (x : Except RenderError α) (f : α → β) :
    failure? (x.map f) = failure? x := by
  cases x <;> rfl

/-- What goes wrong first is what counts. -/
theorem failure?_bind {α β : Type} {x : Except RenderError α} {f : α → Except RenderError β}
    {e : Option RenderError} (hf : ∀ a, failure? (f a) = e) :
    failure? (x >>= f) = (failure? x).or e := by
  cases x with
  | error e => rfl
  | ok a => exact hf a

theorem failure?_bind_pure {α β : Type} (x : Except RenderError α) (f : α → β) :
    failure? (x >>= fun a => pure (f a)) = failure? x :=
  (failure?_bind (e := none) fun _ => rfl).trans Option.or_none

section

variable {r : Renderer} (hr : r.Unvisited)

include hr

theorem Unvisited.failure?_renderText (level : Nat) (t : Text) :
    failure? (r.renderText level t) = none := by
  rw [renderText, hr.visit]
  rfl

theorem Unvisited.failure?_renderDoctype (d : Doctype) :
    failure? (r.renderDoctype d) = r.fault? (.doctype d) := by
  have hfault : r.fault? (.doctype d) = if (Doctype.declaration? d.version).isSome then none
      else some (.unknownDoctype (trimBlanks d.version)) := by
    rw [fault?, Doctype.declaration?]
    exact if_congr Entries.mem_map_fst_iff rfl rfl
  rw [renderDoctype, hr.visit, hfault]
  simp only [bind, Except.bind]
  cases Doctype.declaration? d.version <;> rfl

/-- Inside a tag, what goes wrong in its code comes before what goes wrong below. -/
theorem Unvisited.failure?_tagAround (level : Nat) {head : Element} (text : Option Text)
    (nested : Bool) (code : Option (Except RenderError String))
    (below : Except RenderError String) (hname : head.name ∉ selfClosingTags) :
    failure? (r.tagAround level head text nested code below) =
      (code.bind failure?).or (if nested then failure? below else none) := by
  show failure? (if head.name ∈ selfClosingTags then _ else _) = _
  rw [if_neg hname]
  refine (failure?_bind (e := if nested then failure? below else none) fun inline => ?_).trans ?_
  · refine (failure?_bind (e := if nested then failure? below else none) fun lines => ?_).trans ?_
    · rw [failure?_bind_pure]
      cases nested with
      | false => rfl
      | true => exact failure?_map below _
    · -- The text of a tag has no faults.
      have htext : failure? (text.elim (.ok "") fun text =>
          if text.lines = [] then .ok "" else (r.renderText 0 text).map
            ((if nested then "\n" ++ r.layout.indent (level + 1) else "") ++ ·)) = none := by
        cases text with
        | none => rfl
        | some text =>
          show failure? (if text.lines = [] then _ else _) = none
          split
          · rfl
          · rw [failure?_map, hr.failure?_renderText]
      rw [htext, Option.none_or]
  · cases code with
    | none => rfl
    | some code => exact congrArg (Option.or · _) (failure?_map code _)

/-- A tag fails as its parts do, unless it is self-closing. -/
theorem Unvisited.failure?_tag (level : Nat) {element : Element} {text : Option Text}
    {code : Option Code} {children : Block} {places : List Place}
    (hcode : (code.map (r.renderCode 0 false)).bind failure? = r.firstFault? places)
    (hchildren : failure? (r.renderBlock (level + 1) children) = r.firstFault? children.places) :
    failure? (r.tagAround level element text (!children.children.isEmpty)
        (code.map (r.renderCode 0 false)) (r.renderBlock (level + 1) children)) =
      if decide (element.name ∈ selfClosingTags) then none
      else r.firstFault?
        (places ++ (text.toList.map fun text => { node := .text text }) ++ children.places) := by
  by_cases hname : element.name ∈ selfClosingTags
  · rw [if_pos (decide_eq_true hname)]
    show failure? (if element.name ∈ selfClosingTags then _ else _) = none
    rw [if_pos hname]
    rfl
  · have htext : r.firstFault? (text.toList.map fun text => { node := .text text }) = none := by
      cases text <;> rfl
    have hbelow : (if !children.children.isEmpty then failure? (r.renderBlock (level + 1) children)
        else none) = r.firstFault? children.places := by
      rw [hchildren]
      obtain ⟨line, nodes⟩ := children
      cases nodes <;> rfl
    rw [if_neg (by simpa using hname), hr.failure?_tagAround level text _ _ _ hname, hcode, hbelow,
      firstFault?_append, firstFault?_append, htext, Option.or_none]

end

mutual

theorem Unvisited.failure?_renderNode {r : Renderer} (hr : r.Unvisited) (level : Nat)
    (elseFollows : Bool) : (node : Node) →
      failure? (r.renderNode level elseFollows node) = r.firstFault? (node.enclosing node.inner)
  | .group block => by
    rw [firstFault?_enclosing, renderNode_group]
    exact hr.failure?_renderBlock level block
  | .tag tag => by
    rw [firstFault?_enclosing, renderNode_tag]
    exact hr.failure?_renderTag level tag
  | .text text => by
    rw [firstFault?_enclosing, renderNode_text]
    exact hr.failure?_renderText level text
  | .code code => by
    rw [firstFault?_enclosing]
    exact hr.failure?_renderCode level elseFollows code
  | .comment comment => by
    rw [firstFault?_enclosing, renderNode_comment]
    exact hr.failure?_renderComment level comment
  | .doctype doctype => by
    rw [firstFault?_enclosing, renderNode_doctype]
    exact (hr.failure?_renderDoctype doctype).trans (Option.or_none).symm
  | .filter filter => by
    rw [firstFault?_enclosing, renderNode_filter]
    exact hr.failure?_renderFilter level filter

theorem Unvisited.failure?_renderTag {r : Renderer} (hr : r.Unvisited) (level : Nat) :
    (tag : Tag) → failure? (r.renderTag level tag) =
      if (Node.tag tag).hides then none else r.firstFault? tag.inner
  | ⟨element, text, none, children⟩ => by
    rw [hr.renderTag_eq]
    exact hr.failure?_tag level rfl (hr.failure?_renderBlock (level + 1) children)
  | ⟨element, text, some code, children⟩ => by
    have hcode : ((some code).map (r.renderCode 0 false)).bind failure? =
        r.firstFault? ((Node.code code).enclosing code.inner) := by
      rw [firstFault?_enclosing]
      exact hr.failure?_renderCode 0 false code
    rw [hr.renderTag_eq]
    exact hr.failure?_tag level hcode (hr.failure?_renderBlock (level + 1) children)

theorem Unvisited.failure?_renderCode {r : Renderer} (hr : r.Unvisited) (level : Nat)
    (elseFollows : Bool) : (code : Code) →
      failure? (r.renderCode level elseFollows code) = r.firstFault? code.inner
  | ⟨head, none⟩ => by
    rw [hr.renderCode_none]
    rfl
  | ⟨head, some block⟩ => by
    rw [hr.renderCode_some, failure?_map]
    exact hr.failure?_renderBlock (level + 1) block

theorem Unvisited.failure?_renderComment {r : Renderer} (hr : r.Unvisited) (level : Nat) :
    (comment : Comment) → failure? (r.renderComment level comment) =
      if (Node.comment comment).hides then none else r.firstFault? comment.inner
  | ⟨remark, none⟩ => by
    rw [renderComment_eq, hr.visit]
    show failure? (if remark.buffered then _ else _) = if !remark.buffered then _ else _
    cases remark.buffered <;> rfl
  | ⟨remark, some block⟩ => by
    have hbelow := hr.failure?_renderBlock (level + 1) block
    show _ = if !remark.buffered then _ else _
    cases hbuffered : remark.buffered with
    | false =>
      rw [hr.renderComment_hidden level hbuffered]
      rfl
    | true =>
      rw [hr.renderComment_some level hbuffered, failure?_map]
      exact hbelow

theorem Unvisited.failure?_renderFilter {r : Renderer} (hr : r.Unvisited) (level : Nat) :
    (filter : Filter) → failure? (r.renderFilter level filter) =
      (r.fault? (.filter filter)).or (r.firstFault? filter.inner)
  | ⟨directive, body⟩ => by
    have hbody := hr.failure?_renderNode (level + 1) false body
    have hfault : r.fault? (.filter ⟨directive, body⟩) =
        if (r.filter? directive.name).isSome then none
        else some (.unregisteredFilter directive.name) :=
      if_congr Entries.mem_map_fst_iff rfl rfl
    rw [renderFilter_eq, hr.visit, hfault]
    show failure? (r.findFilter directive.name >>= _) = _
    rw [findFilter]
    cases r.filter? directive.name with
    | none => rfl
    | some filter => exact (failure?_map _ _).trans hbody

theorem Unvisited.failure?_renderBlock {r : Renderer} (hr : r.Unvisited) (level : Nat) :
    (block : Block) → failure? (r.renderBlock level block) = r.firstFault? block.places
  | ⟨line, children⟩ => by
    rw [renderBlock_eq, failure?_map]
    exact hr.failure?_renderAhead level false children

theorem Unvisited.failure?_renderAhead {r : Renderer} (hr : r.Unvisited) (level : Nat)
    (elseFollows : Bool) : (nodes : List Node) →
      failure? (r.renderAhead level elseFollows nodes) = r.firstFault? (Node.placesOf nodes)
  | [] => rfl
  | node :: nodes => by
    rw [renderAhead, Node.placesOf, firstFault?_append, ← hr.failure?_renderNode level _ node,
      ← hr.failure?_renderAhead level elseFollows nodes]
    exact failure?_bind fun first => failure?_bind_pure _ _

end

/-- Rendering fails exactly at nodes with a fault that are shown: not inside of a
self-closing tag and not inside of a hidden comment. The error is that of the first such
node in the order of rendering. -/
theorem render_eq_error_iff_first_fault {r : Renderer} (hr : r.Unvisited) (root : Block) :
    ((∃ e, r.render root = .error e) ↔
      ∃ p ∈ root.places, p.isShown = true ∧ (r.fault? p.node).isSome = true) ∧
    ∀ e, r.render root = .error e ↔
      ∃ before p after, root.places = before ++ p :: after ∧
        p.isShown = true ∧ r.fault? p.node = some e ∧
        ∀ q ∈ before, q.isShown = true → r.fault? q.node = none := by
  have hrender : ∀ e, r.render root = .error e ↔ r.firstFault? root.places = some e := by
    intro e
    rw [← failure?_eq_some_iff]
    exact Iff.of_eq (congrArg (· = some e) (hr.failure?_renderBlock 0 root))
  constructor
  · calc (∃ e, r.render root = .error e)
        ↔ ∃ e, r.firstFault? root.places = some e := exists_congr hrender
      _ ↔ (r.firstFault? root.places).isSome = true := Option.isSome_iff_exists.symm
      _ ↔ ∃ p ∈ root.places, (r.faultAt? p).isSome = true := List.findSome?_isSome_iff
      _ ↔ ∃ p ∈ root.places, p.isShown = true ∧ (r.fault? p.node).isSome = true := by
          simp only [Option.isSome_iff_exists, faultAt?_eq_some_iff, exists_and_left]
  · intro e
    rw [hrender, firstFault?, List.findSome?_eq_some_iff]
    simp only [faultAt?_eq_some_iff, faultAt?_eq_none_iff, and_assoc]

/-- A page with six faults, of which the first three are hidden. Of the others, the filter
below the code of the tag comes before its own body and before what is below the tag. -/
theorem render_eq_error_iff_first_fault_page :
    let bad (version : String) : Node := .doctype ⟨1, version⟩
    let filter (name : String) (body : Node) : Node :=
      .filter ⟨{ line := 1, name, attributes := .empty }, body⟩
    let hidden : Node := .comment ⟨{ line := 1, body := "", buffered := false },
      some ⟨1, [bad "one"]⟩⟩
    let image : Node := .tag ⟨.ofName "img" 1, none, none, ⟨1, [filter "two" (bad "two")]⟩⟩
    let code : Code := ⟨{ line := 1, expression := "$a", buffered := true },
      some ⟨1, [bad " 5 ", filter "three" (bad "four")]⟩⟩
    let page : Node := .tag ⟨.ofName "p" 1, some ⟨1, ["text"]⟩, some code, ⟨1, [bad "five"]⟩⟩
    let r : Renderer := {}
    r.Unvisited ∧ r.render ⟨1, [hidden, image, page]⟩ = .error (.unregisteredFilter "three") := by
  intro bad filter hidden image code page r
  have hr : r.Unvisited := fun _ => rfl
  let root : Block := ⟨1, [hidden, image, page]⟩
  refine ⟨hr, ((render_eq_error_iff_first_fault hr root).2 _).2
    ⟨root.places.take 8, ⟨filter "three" (bad "four"), [.code code, page]⟩, root.places.drop 9,
      rfl, ?_, ?_, ?_⟩⟩
  · decide +kernel
  · decide +kernel
  · decide +kernel

end Renderer

end Offside
