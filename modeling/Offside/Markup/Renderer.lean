import Offside.Layout
import Offside.Markup.Attributes
import Offside.Markup.Autotag
import Offside.Markup.Control
import Offside.Markup.Doctype
import Offside.Markup.TextFilter

/-!
# Rendering

Renders a document as markup. Each level of the document is one level of
indentation in the markup. Visitors rewrite a node before it is rendered; filters
are looked up by their alias.

A branch of a conditional that is followed by another branch is not closed, so a
chain of branches is closed once, by the last one. What follows is decided on the
document as it was before visitors see it.

What is done for one node is said in `step`, which is told how the nodes inside are
rendered. Visitors may put more and more nodes below the ones they are given, and then
rendering does not end: `rendering` is the least fixed point of `step`, and has no value
there.
-/

set_option autoImplicit false

namespace Offside

open Offside.Character (after? isSpace trimBlanks trimLeadingSpaces trimTrailingSpaces)

/-- Why a document cannot be rendered. -/
inductive RenderError where
  | unknownDoctype (version : String)
  | unregisteredFilter (name : String)
  | visit (error : VisitError)
  /-- Visitors add to the document without end. -/
  | endless
deriving DecidableEq, Repr

/-- The text of the error. -/
def RenderError.message : RenderError → String
  | unknownDoctype version => "unknown doctype " ++ version
  | unregisteredFilter name => "filter with alias \"" ++ name ++ "\" is not registered"
  | visit error => error.message
  | endless => "rendering does not end"

/-- Why an extension cannot be registered. -/
inductive RegistrationError where
  | unknownNodeKind (name : String)
  | duplicateFilter (name : String)
deriving DecidableEq, Repr

/-- The text of the error. -/
def RegistrationError.message : RegistrationError → String
  | unknownNodeKind name =>
    "unsupported node type \"" ++ name ++ "\", use one of: " ++
      ", ".intercalate (Node.Kind.all.map Node.Kind.name)
  | duplicateFilter name => "filter with alias " ++ name ++ " is already registered"

/-- A layout with the extensions that are registered. -/
structure Renderer where
  layout : Layout := {}
  /-- The visitors of each kind, in the order they run. -/
  visitors : Node.Kind → List Visitor := fun _ => []
  /-- The filters by alias, in the order they were registered. -/
  filters : List (String × TextFilter) := []

namespace Renderer

/-! ### Extensions -/

/-- Registers a visitor for a kind of nodes, behind those registered before. -/
def registerVisitor (r : Renderer) (kind : String) (visitor : Visitor) :
    Except RegistrationError Unit × Renderer :=
  match Node.Kind.ofName? kind with
  | none => (.error (.unknownNodeKind kind), r)
  | some kind =>
    let visitors := fun k => if k = kind then r.visitors k ++ [visitor] else r.visitors k
    (.ok (), { r with visitors })

/-- The filter with an alias. -/
def filter? (r : Renderer) (name : String) : Option TextFilter :=
  r.filters.lookup name

/-- Registers a filter under an alias, unless the alias is taken. -/
def registerFilter (r : Renderer) (name : String) (filter : TextFilter) :
    Except RegistrationError Unit × Renderer :=
  match r.filter? name with
  | some _ => (.error (.duplicateFilter name), r)
  | none => (.ok (), { r with filters := r.filters ++ [(name, filter)] })

/-- Registers filters one after the other, up to the first whose alias is taken. -/
def registerFilters (r : Renderer) :
    List (String × TextFilter) → Except RegistrationError Unit × Renderer
  | [] => (.ok (), r)
  | (name, filter) :: filters =>
    match r.registerFilter name filter with
    | (.ok (), r) => r.registerFilters filters
    | (.error e, r) => (.error e, r)

/-- Registers the filters that come with the language. -/
def registerBuiltinFilters (r : Renderer) : Except RegistrationError Unit × Renderer :=
  r.registerFilters TextFilter.builtin

/-! ### Visiting -/

/-- What the visitors of a kind make of a node, one after the other. `see` is how a visitor sees
nodes of that kind. -/
def visit {α : Type} (r : Renderer) (kind : Node.Kind)
    (see : Visitor → α → Except VisitError α) (node : α) : Except RenderError α :=
  ((r.visitors kind).foldlM (fun node visitor => see visitor node) node).mapError .visit

/-! ### Nodes without a block -/

/-- Tags that have no content and no closing tag. -/
def selfClosingTags : List String :=
  ["meta", "img", "link", "br", "hr", "input", "area", "base"]

/-- The declaration of a document type. -/
def renderDoctype (r : Renderer) (d : Doctype) : Except RenderError String := do
  let d ← r.visit .doctype Visitor.doctype d
  match Doctype.declaration? d.version with
  | some declaration => return declaration
  | none => throw (.unknownDoctype (trimBlanks d.version))

/-- The lines of a text, each at the same indentation. -/
def renderText (r : Renderer) (level : Nat) (t : Text) : Except RenderError String := do
  let t ← r.visit .text Visitor.text t
  let indent := r.layout.indent level
  return indent ++ Markup.interpolate (("\n" ++ indent).intercalate t.lines) false

/-! ### Nodes with a block -/

/-- Whether the body of a comment is a condition for the browser. -/
def isConditional (body : String) : Bool :=
  match body.toList with
  | '[' :: cs => (after? "if".toList (cs.dropWhile isSpace)).isSome
  | _ => false

/-- `s` without a backslash at its end. -/
def dropBackslash (s : String) : String :=
  if s.toList.getLast? = some '\\' then String.ofList s.toList.dropLast else s

/-- What stands in front of the block of code and what stands behind it. With
`elseFollows`, the next node is a further branch of the same conditional. -/
def codeFrame (r : Renderer) (level : Nat) (elseFollows : Bool) (head : Statement) :
    String × String :=
  let indent := r.layout.indent level
  let expression := trimLeadingSpaces head.expression
  if head.verbatim then
    ("<?php\n" ++ r.layout.indent (level + 1) ++ dropBackslash expression ++ "\n",
      "\n" ++ indent ++ "?>")
  else
    match Control.classify head.expression with
    | some control =>
      ("<?php " ++ trimTrailingSpaces expression ++ " ?>\n",
        if control.closing = "endif" ∧ elseFollows then ""
        else "\n" ++ indent ++ "<?php " ++ control.closing ++ "; ?>")
    | none =>
      ((if head.buffered then "<?= " else "<?php ") ++ expression ++ " \x7b ?>\n",
        "\n" ++ indent ++ "<?php \x7d ?>")

/-- Code that has no block. -/
def directive (head : Statement) : String :=
  (if head.buffered then "<?= " else "<?php ") ++ trimLeadingSpaces head.expression ++ " ?>"

/-- What stands in front of the block of a comment and on the line behind it. -/
def commentFrame (r : Renderer) (level : Nat) (head : Remark) : String × String :=
  if isConditional head.body then ("<!--" ++ head.body ++ ">\n", "<![endif]-->")
  else
    ("<!--\n" ++ (if head.body = "" then "" else r.layout.indent (level + 1) ++ head.body ++ "\n"),
      "-->")

/-- Whether a node is a further branch of a conditional. -/
def continuesConditional : Node → Bool
  | .code c => (Control.classify c.expression).any Control.continues
  | _ => false

/-- The nodes of a block, each with whether the next one is a further branch of a
conditional. -/
def withNext : List Node → List (Node × Bool)
  | [] => []
  | node :: nodes => (node, nodes.head?.any continuesConditional) :: withNext nodes

/-- The markup of a part of a tag, put into what surrounds it. A part that is missing has
none. -/
def part {m : Type → Type} [Monad m] (around : String → String) : Option (m String) → m String
  | none => return ""
  | some markup => do return around (← markup)

/-- The filter with an alias, which has to be registered. -/
def findFilter (r : Renderer) (name : String) : Except RenderError TextFilter :=
  match r.filter? name with
  | some filter => .ok filter
  | none => .error (.unregisteredFilter name)

/-- The markup of a node, where `self` renders the nodes inside of it.

The code and the text of a tag stand inside it, in front of its block, on lines of their own
if it has one. A hidden comment has no markup, and nodes without markup leave no line behind
among the others of their block. -/
def step {m : Type → Type} [Monad m] [MonadLiftT (Except RenderError) m] (r : Renderer)
    (self : (level : Nat) → (elseFollows : Bool) → Node → m String) (level : Nat)
    (elseFollows : Bool) (node : Node) : m String :=
  let indent := r.layout.indent level
  match node with
  | .group block => do
    let rendered ← (withNext block.children).mapM fun child => self level child.2 child.1
    return "\n".intercalate (rendered.filter (· ≠ ""))
  | .tag tag => do
    let tag ← r.visit .tag Visitor.tag tag
    let opening := indent ++ "<" ++ tag.name ++ tag.attributes.markup
    if tag.name ∈ selfClosingTags then
      return opening ++ " />"
    else
      let nested := !tag.children.children.isEmpty
      let lead := if nested then "\n" ++ r.layout.indent (level + 1) else ""
      let code ← part (lead ++ ·) (tag.code.map fun code => self 0 false (.code code))
      let text ← part (lead ++ ·)
        ((tag.text.filter (·.lines ≠ [])).map fun text => self 0 false (.text text))
      let block ← part ("\n" ++ · ++ "\n" ++ indent)
        (if nested then some (self (level + 1) false (.group tag.children)) else none)
      return opening ++ ">" ++ code ++ text ++ block ++ "</" ++ tag.name ++ ">"
  | .text text => liftM (r.renderText level text)
  | .code code => do
    let code ← r.visit .code Visitor.code code
    match code.block with
    | some block =>
      let (before, after) := r.codeFrame level elseFollows code.toStatement
      let inner ← self (level + 1) false (.group block)
      return indent ++ before ++ inner ++ after
    | none => return indent ++ directive code.toStatement
  | .comment comment => do
    let comment ← r.visit .comment Visitor.comment comment
    if comment.buffered then
      match comment.block with
      | some block =>
        let inner ← self (level + 1) false (.group block)
        let (before, after) := r.commentFrame level comment.toRemark
        return indent ++ before ++ inner ++ "\n" ++ indent ++ after
      | none => return indent ++ "<!-- " ++ comment.body ++ " -->"
    else return ""
  | .doctype doctype => liftM (r.renderDoctype doctype)
  | .filter filter => do
    let filter ← r.visit .filter Visitor.filter filter
    let apply ← r.findFilter filter.name
    let text ← self (level + 1) false filter.body
    return apply text filter.attributes indent

/-! ### Comparing steps -/

/-- A relation between computations of two kinds that is kept when one goes on after the
other. -/
structure Simulation (m n : Type → Type) [Monad m] [Monad n] where
  rel {α : Type} : m α → n α → Prop
  rel_pure {α : Type} (a : α) : rel (pure a) (pure a)
  rel_bind {α β : Type} {x : m α} {y : n α} {f : α → m β} {g : α → n β} :
    rel x y → (∀ a, rel (f a) (g a)) → rel (x >>= f) (y >>= g)

namespace Simulation

variable {m n : Type → Type} [Monad m] [Monad n] (S : Simulation m n)

theorem rel_mapM {α β : Type} {f : α → m β} {g : α → n β} (h : ∀ a, S.rel (f a) (g a))
    (as : List α) : S.rel (as.mapM f) (as.mapM g) := by
  -- `mapM` collects what it has so far in reverse.
  have hloop : ∀ bs, S.rel (List.mapM.loop f as bs) (List.mapM.loop g as bs) := by
    induction as with
    | nil => intro bs; exact S.rel_pure bs.reverse
    | cons a as ih => intro bs; exact S.rel_bind (h a) fun b => ih (b :: bs)
  exact hloop []

theorem rel_part (around : String → String) {x : Option (m String)} {y : Option (n String)}
    (h : Option.Rel S.rel x y) : S.rel (part around x) (part around y) := by
  cases h with
  | none => exact S.rel_pure ""
  | some h => exact S.rel_bind h fun markup => S.rel_pure (around markup)

variable [MonadLiftT (Except RenderError) m] [MonadLiftT (Except RenderError) n]

/-- Steps are related where what they do for the nodes inside and what they find is. -/
theorem rel_step {r s : Renderer} (hlayout : r.layout = s.layout)
    (hvisitors : r.visitors = s.visitors)
    (hlift : ∀ {α : Type} (x : Except RenderError α), S.rel (liftM x) (liftM x))
    (hfind : ∀ name, S.rel (liftM (r.findFilter name)) (liftM (s.findFilter name)))
    {f : Nat → Bool → Node → m String} {g : Nat → Bool → Node → n String}
    (hself : ∀ level elseFollows node,
      S.rel (f level elseFollows node) (g level elseFollows node))
    (level : Nat) (elseFollows : Bool) (node : Node) :
    S.rel (r.step f level elseFollows node) (s.step g level elseFollows node) := by
  obtain ⟨layout, visitors, filters⟩ := r
  obtain ⟨layout', visitors', filters'⟩ := s
  obtain rfl : layout = layout' := hlayout
  obtain rfl : visitors = visitors' := hvisitors
  cases node with
  | group block =>
    exact S.rel_bind (S.rel_mapM (fun child => hself _ _ _) _) fun rendered => S.rel_pure _
  | tag tag =>
    refine S.rel_bind (hlift _) fun tag => ?_
    dsimp only
    split
    · exact S.rel_pure _
    · refine S.rel_bind (S.rel_part _ ?_) fun code => ?_
      · cases tag.code with
        | none => exact .none
        | some code => exact .some (hself _ _ _)
      refine S.rel_bind (S.rel_part _ ?_) fun text => ?_
      · cases tag.text.filter (·.lines ≠ []) with
        | none => exact .none
        | some text => exact .some (hself _ _ _)
      refine S.rel_bind (S.rel_part _ ?_) fun block => S.rel_pure _
      split
      · exact .some (hself _ _ _)
      · exact .none
  | text text => exact hlift _
  | code code =>
    refine S.rel_bind (hlift _) fun code => ?_
    cases code.block with
    | some block => exact S.rel_bind (hself _ _ _) fun inner => S.rel_pure _
    | none => exact S.rel_pure _
  | comment comment =>
    refine S.rel_bind (hlift _) fun comment => ?_
    split
    · cases comment.block with
      | some block => exact S.rel_bind (hself _ _ _) fun inner => S.rel_pure _
      | none => exact S.rel_pure _
    · exact S.rel_pure _
  | doctype doctype => exact hlift _
  | filter filter =>
    refine S.rel_bind (hlift _) fun filter => ?_
    refine S.rel_bind (hfind _) fun apply => ?_
    exact S.rel_bind (hself _ _ _) fun text => S.rel_pure _

end Simulation

/-! ### Rendering -/

/-- What rendering comes to, if it ends. -/
abbrev Rendering : Type → Type :=
  ExceptT RenderError Option

/-- What the first computation comes to, the second comes to as well, apart from errors that do
not count. -/
def Rendering.extending (counts : RenderError → Prop) : Simulation Rendering Rendering where
  rel x y := ∀ out, (∀ e, out = .error e → counts e) → x.run = some out → y.run = some out
  rel_pure a := fun out _ h => h
  rel_bind {α β x y f g} hx hf := by
    intro out hcounts h
    rw [ExceptT.run_bind] at h ⊢
    cases hrun : x.run with
    | none =>
      rw [hrun] at h
      cases h
    | some first =>
      rw [hrun] at h
      cases first with
      | error e =>
        -- The error is that of the first part.
        obtain rfl : .error e = out := Option.some.inj h
        rw [hx (.error e) (fun e' he => hcounts e' (by cases he; rfl)) hrun]
        rfl
      | ok a =>
        rw [hx (.ok a) nofun hrun]
        exact hf a out hcounts h

/-- A step comes to what it came to, if rendering the nodes inside of it does. -/
theorem step_mono (r : Renderer) {f g : Nat → Bool → Node → Option (Except RenderError String)}
    (h : ∀ level elseFollows node out, f level elseFollows node = some out →
      g level elseFollows node = some out) (level : Nat) (elseFollows : Bool) (node : Node)
    (out : Except RenderError String)
    (hf : r.step (m := Rendering) f level elseFollows node = some out) :
    r.step (m := Rendering) g level elseFollows node = some out :=
  (Rendering.extending fun _ => True).rel_step rfl rfl (fun _ _ _ h => h) (fun _ _ _ h => h)
    (fun level elseFollows node out _ => h level elseFollows node out) level elseFollows node out
    (fun _ _ => trivial) hf

/-- What rendering a node comes to, if it ends. -/
def rendering (r : Renderer) (level : Nat) (elseFollows : Bool) (node : Node) :
    Option (Except RenderError String) :=
  step (m := Rendering) r (by apply rendering; exact r) level elseFollows node
partial_fixpoint monotonicity by
  intro f g hfg level elseFollows node
  have hle : ∀ level elseFollows node out, f level elseFollows node = some out →
      g level elseFollows node = some out := by
    intro level elseFollows node out hout
    have hrel := hfg level elseFollows node
    cases hg : g level elseFollows node <;> rw [hout, hg] at hrel <;> cases hrel
    rfl
  cases hf : r.step (m := Rendering) f level elseFollows node with
  | none =>
    simp only [hf]
    constructor
  | some out =>
    simp only [hf, r.step_mono hle level elseFollows node out hf]
    constructor

/-- The markup of a node. -/
def renderNode (r : Renderer) (level : Nat) (elseFollows : Bool) (node : Node) :
    Except RenderError String :=
  (r.rendering level elseFollows node).getD (.error .endless)

/-- The markup of a block: that of its nodes, one below the other. -/
def renderBlock (r : Renderer) (level : Nat) (block : Block) : Except RenderError String :=
  r.renderNode level false (.group block)

/-- The markup of a document. -/
def render (r : Renderer) (root : Block) : Except RenderError String :=
  r.renderBlock 0 root

end Renderer

end Offside
