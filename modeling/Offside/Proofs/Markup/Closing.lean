import Offside.Proofs.Document.Codes
import Offside.Proofs.Markup.Siblings
import Offside.Proofs.Outline.Reading

/-!
# Where conditionals are closed

A conditional is an `if` branch with the further branches right behind it. Each branch
leaves the closing line to the one behind it, and the last branch adds it to its block.
So a conditional is closed once, behind its last branch, if that branch has a block, and
it is not closed at all if it has none (`Renderer.chainMarkup`).

`conditional_closed_by_last_block` states this for all blocks in the document of a
template that are rendered at all (`Shows`), and `conditional_left_open` is a template
whose conditional stays open.
-/

set_option autoImplicit false

namespace Offside

open Offside.Character (trimSpaces)
open Markup (joinLines joinLines_cons joinLines_pair)
open Renderer (continuesConditional directive selfClosingTags)

/-! ### A chain of branches -/

namespace Renderer

/-- The markup of a branch, without what closes it. -/
def branchMarkup (r : Renderer) (level : Nat) : Code → Except RenderError String
  | ⟨head, some below⟩ => (r.renderBlock (level + 1) below).map fun inner =>
    r.layout.indent level ++ "<?php " ++ trimSpaces head.expression ++ " ?>\n" ++ inner
  | ⟨head, none⟩ => .ok (r.layout.indent level ++ directive head)

/-- The markup of a chain of branches, one below the other. It is closed behind the last
one, if that one has a block. -/
def chainMarkup (r : Renderer) (level : Nat) (branches : List Code) :
    Except RenderError String :=
  (branches.mapM (r.branchMarkup level)).map fun parts =>
    "\n".intercalate parts ++
      if branches.getLast?.any (·.block.isSome) then r.closer level else ""

/-- Branches of conditionals, whose blocks hold nodes. -/
def Branches (branches : List Code) : Prop :=
  ∀ c ∈ branches, c.verbatim = false ∧ (Control.classify c.expression).any Control.isBranch = true

theorem chainMarkup_singleton (r : Renderer) (level : Nat) (c : Code) :
    r.chainMarkup level [c] =
      (r.branchMarkup level c).map (· ++ if c.block.isSome then r.closer level else "") := by
  rw [chainMarkup, List.mapM_cons]
  cases r.branchMarkup level c with
  | error e => rfl
  | ok markup =>
    show Except.ok ("\n".intercalate [markup] ++ if c.block.isSome then _ else _) = _
    rw [String.intercalate_singleton]
    rfl

theorem chainMarkup_cons_cons (r : Renderer) (level : Nat) (c d : Code) (others : List Code) :
    r.chainMarkup level (c :: d :: others) = (do
      let first ← r.branchMarkup level c
      let chain ← r.chainMarkup level (d :: others)
      return first ++ "\n" ++ chain) := by
  rw [chainMarkup, chainMarkup, List.mapM_cons, List.mapM_cons]
  cases r.branchMarkup level c with
  | error e => rfl
  | ok first =>
    cases r.branchMarkup level d with
    | error e => rfl
    | ok second =>
      cases others.mapM (r.branchMarkup level) with
      | error e => rfl
      | ok parts =>
        show Except.ok ("\n".intercalate (first :: second :: parts) ++ _) =
          Except.ok (_ ++ (_ ++ _))
        rw [String.intercalate_cons_cons, String.append_assoc, List.getLast?_cons_cons]

variable {r : Renderer}

/-- A branch is closed if it has a block and no other branch follows. -/
theorem Unvisited.renderCode_of_branch (hr : r.Unvisited) (level : Nat)
    (elseFollows : Bool) {c : Code} (hverbatim : c.verbatim = false)
    (hcontrol : (Control.classify c.expression).any Control.isBranch = true) :
    r.renderCode level elseFollows c = (r.branchMarkup level c).map
      (· ++ if c.block.isSome && !elseFollows then r.closer level else "") := by
  obtain ⟨head, block⟩ := c
  cases block with
  | none =>
    rw [hr.renderCode_none]
    exact congrArg Except.ok (String.append_empty).symm
  | some below =>
    have hverbatim : head.verbatim = false := hverbatim
    have hbranch : (Code.mk head (some below)).isBranch = true := by
      simp [Code.isBranch, hverbatim, hcontrol]
    rw [hr.renderCode_some, codeFrame_of_isBranch r level elseFollows hbranch, branchMarkup]
    cases r.renderBlock (level + 1) below with
    | error e => rfl
    | ok inner => cases elseFollows <;> simp [Except.map, String.append_assoc]

/-- A chain is rendered branch by branch. -/
theorem Unvisited.renderAhead_branches (hr : r.Unvisited) (level : Nat)
    (first : Code) (others : List Code) (hbranches : Branches (first :: others))
    (hothers : ∀ c ∈ others, (Control.classify c.expression).any Control.continues = true) :
    (r.renderAhead level false ((first :: others).map .code)).map joinLines =
      r.chainMarkup level (first :: others) := by
  induction others generalizing first with
  | nil =>
    obtain ⟨hverbatim, hcontrol⟩ := hbranches first List.mem_cons_self
    rw [chainMarkup_singleton]
    show ((r.renderCode level false first >>= _ : Except RenderError (List String)).map _) = _
    rw [hr.renderCode_of_branch level false hverbatim hcontrol, Bool.not_false, Bool.and_true]
    cases r.branchMarkup level first with
    | error e => rfl
    | ok markup => exact congrArg Except.ok (Markup.joinLines_singleton _)
  | cons second others ih =>
    obtain ⟨hverbatim, hcontrol⟩ := hbranches first List.mem_cons_self
    have hrest := ih second (fun c hc => hbranches c (List.mem_cons_of_mem first hc))
      (fun c hc => hothers c (List.mem_cons_of_mem second hc))
    have hnext : (((second :: others).map Node.code).head?.map continuesConditional).getD false =
        true := hothers second List.mem_cons_self
    have hfirst : r.renderNode level true (.code first) = r.branchMarkup level first := by
      show r.renderCode level true first = _
      rw [hr.renderCode_of_branch level true hverbatim hcontrol, Bool.not_true, Bool.and_false]
      cases r.branchMarkup level first with
      | error e => rfl
      | ok markup => exact congrArg Except.ok String.append_empty
    rw [chainMarkup_cons_cons, ← hrest, List.map_cons, renderAhead, hnext, ← hfirst]
    cases hmarkup : r.renderNode level true (.code first) with
    | error e => rfl
    | ok markup =>
      cases hparts : r.renderAhead level false ((second :: others).map .code) with
      | error e => rfl
      | ok parts =>
        refine congrArg Except.ok ((joinLines_cons markup parts).trans (joinLines_pair ?_ ?_))
        · exact hr.ne_empty_of_code hmarkup
        · exact hr.joinLines_ne_empty (c := second) (by simp) hparts

/-- A chain among other nodes. -/
theorem Unvisited.renderBlock_of_chain (hr : r.Unvisited) (level line : Nat)
    (before after : List Node) {first : Code} {others : List Code}
    (hbranches : Branches (first :: others))
    (hfirst : (Control.classify first.expression).any Control.continues = false)
    (hothers : ∀ c ∈ others, (Control.classify c.expression).any Control.continues = true)
    (hafter : after.head?.any continuesConditional = false) :
    r.renderBlock level ⟨line, before ++ ((first :: others).map .code ++ after)⟩ = (do
      let above ← r.renderBlock level ⟨line, before⟩
      let chain ← r.chainMarkup level (first :: others)
      let below ← r.renderBlock level ⟨line, after⟩
      return joinLines [above, chain, below]) := by
  have hnext : ((first :: others).map Node.code ++ after).head?.any continuesConditional = false :=
    hfirst
  rw [renderBlock_append_apart r level line before hnext,
    renderBlock_append_apart r level line _ hafter, renderBlock_eq r level line (List.map _ _),
    hr.renderAhead_branches level first others hbranches hothers]
  cases r.renderBlock level ⟨line, before⟩ with
  | error e => rfl
  | ok above =>
    cases r.chainMarkup level (first :: others) with
    | error e => rfl
    | ok chain =>
      cases r.renderBlock level ⟨line, after⟩ with
      | error e => rfl
      | ok below => exact congrArg Except.ok (joinLines_cons above [chain, below]).symm

end Renderer

/-! ### Blocks that are rendered -/

/-- The blocks right below a node whose markup is part of the markup of the node, each
with its level. -/
inductive Node.Shows (level : Nat) : Node → Block → Nat → Prop
  | group (block : Block) : Shows level (.group block) block level
  | tag (t : Tag) (hname : t.name ∉ selfClosingTags) (hne : t.children.children ≠ []) :
    Shows level (.tag t) t.children (level + 1)
  /-- Code on the line of a tag is rendered as if it stood on the outermost level. -/
  | inline (t : Tag) (c : Code) (block : Block) (hname : t.name ∉ selfClosingTags)
      (hcode : t.code = some c) (hblock : c.block = some block) : Shows level (.tag t) block 1
  | code (c : Code) (block : Block) (hblock : c.block = some block) :
    Shows level (.code c) block (level + 1)
  | comment (c : Comment) (block : Block) (hbuffered : c.buffered = true)
      (hblock : c.block = some block) : Shows level (.comment c) block (level + 1)

/-- The blocks of a document that are rendered, each with its level. -/
inductive Shows (root : Block) : Block → Nat → Prop
  | root : Shows root root 0
  | inside {block inner : Block} {level level' : Nat} {node : Node} (h : Shows root block level)
      (hnode : node ∈ block.children) (hinner : node.Shows level inner level') :
    Shows root inner level'

variable {level : Nat} {c : Code} {root block : Block} {r : Renderer} {out : String}

/-- The code of a block that a node shows is code of the node. -/
theorem Node.Shows.mem_codes {level' : Nat} {node : Node} {inner : Block}
    (h : node.Shows level inner level') (hc : c ∈ inner.codes) : c ∈ node.codes := by
  cases h with
  | group => exact hc
  | tag t hname hne =>
    obtain ⟨element, text, code, children⟩ := t
    cases code with
    | none => exact hc
    | some code => exact List.mem_append_right _ hc
  | inline t code block hname hcode hblock =>
    obtain ⟨element, text, inline, children⟩ := t
    obtain ⟨head, below⟩ := code
    obtain rfl : inline = some ⟨head, below⟩ := hcode
    obtain rfl : below = some inner := hblock
    exact List.mem_append_left _ (List.mem_cons_of_mem _ hc)
  | code code block hblock =>
    obtain ⟨head, below⟩ := code
    obtain rfl : below = some inner := hblock
    exact List.mem_cons_of_mem _ hc
  | comment comment block hbuffered hblock =>
    obtain ⟨head, below⟩ := comment
    obtain rfl : below = some inner := hblock
    exact hc

theorem Shows.mem_codes (h : Shows root block level) (hc : c ∈ block.codes) : c ∈ root.codes := by
  induction h with
  | root => exact hc
  | @inside block inner _ _ node _ hnode hinner ih =>
    refine ih ?_
    obtain ⟨line, children⟩ := block
    exact Node.mem_codesOf hnode (hinner.mem_codes hc)

section

variable {x a b : String}

theorem infix_append_left (h : x.toList <:+: a.toList) (b : String) :
    x.toList <:+: (a ++ b).toList := by
  rw [String.toList_append]
  exact h.trans (List.prefix_append _ _).isInfix

theorem infix_append_right (h : x.toList <:+: b.toList) (a : String) :
    x.toList <:+: (a ++ b).toList := by
  rw [String.toList_append]
  exact h.trans (List.suffix_append _ _).isInfix

end

theorem infix_renderCode (hr : r.Unvisited) {elseFollows : Bool} (hblock : c.block = some block)
    (h : r.renderCode level elseFollows c = .ok out) :
    ∃ text, r.renderBlock (level + 1) block = .ok text ∧ text.toList <:+: out.toList := by
  obtain ⟨head, below⟩ := c
  obtain rfl : below = some block := hblock
  rw [hr.renderCode_some] at h
  obtain ⟨text, htext, rfl⟩ := map_eq_ok_iff.1 h
  exact ⟨text, htext, infix_append_left (infix_append_right List.infix_rfl _) _⟩

/-- What is rendered inside of a tag is part of its markup. -/
theorem Renderer.infix_tagAround {head : Element}
    {text : Option Text} {nested : Bool} {code : Option (Except RenderError String)}
    {below : Except RenderError String} (hname : head.name ∉ selfClosingTags)
    (h : r.tagAround level head text nested code below = .ok out) :
    (∀ x ∈ code, ∃ markup, x = .ok markup ∧ markup.toList <:+: out.toList) ∧
      (nested = true → ∃ markup, below = .ok markup ∧ markup.toList <:+: out.toList) := by
  simp only [tagAround, if_neg hname] at h
  obtain ⟨inline, hinline, h⟩ := bind_eq_ok_iff.1 h
  obtain ⟨lines, -, h⟩ := bind_eq_ok_iff.1 h
  obtain ⟨inside, hinside, h⟩ := bind_eq_ok_iff.1 h
  obtain rfl := Except.ok.inj h
  constructor
  · rintro x hx
    obtain rfl : code = some x := hx
    obtain ⟨markup, hmarkup, rfl⟩ := map_eq_ok_iff.1 hinline
    refine ⟨markup, hmarkup, ?_⟩
    iterate 5 apply infix_append_left
    exact infix_append_right (infix_append_right List.infix_rfl _) _
  · rintro rfl
    obtain ⟨markup, hmarkup, rfl⟩ := map_eq_ok_iff.1 hinside
    refine ⟨markup, hmarkup, ?_⟩
    iterate 3 apply infix_append_left
    apply infix_append_right
    iterate 2 apply infix_append_left
    exact infix_append_right List.infix_rfl _

/-- The markup of a block that a node shows is part of the markup of the node. -/
theorem Node.Shows.infix (hr : r.Unvisited) {level' : Nat} {node : Node}
    {inner : Block} (h : node.Shows level inner level') {elseFollows : Bool}
    (hout : r.renderNode level elseFollows node = .ok out) :
    ∃ text, r.renderBlock level' inner = .ok text ∧ text.toList <:+: out.toList := by
  cases h with
  | group =>
    rw [Renderer.renderNode_group] at hout
    exact ⟨out, hout, List.infix_rfl⟩
  | tag t hname hne =>
    rw [Renderer.renderNode_tag, hr.renderTag_eq] at hout
    exact (Renderer.infix_tagAround hname hout).2 (by simpa using hne)
  | inline t code block hname hcode hblock =>
    rw [Renderer.renderNode_tag, hr.renderTag_eq, hcode] at hout
    obtain ⟨markup, hmarkup, hinfix⟩ := (Renderer.infix_tagAround hname hout).1 _ rfl
    obtain ⟨text, htext, hpart⟩ := infix_renderCode hr hblock hmarkup
    exact ⟨text, htext, hpart.trans hinfix⟩
  | code code block hblock => exact infix_renderCode hr hblock hout
  | comment comment block hbuffered hblock =>
    obtain ⟨head, below⟩ := comment
    obtain rfl : below = some inner := hblock
    rw [Renderer.renderNode_comment, hr.renderComment_some level hbuffered] at hout
    obtain ⟨text, htext, rfl⟩ := map_eq_ok_iff.1 hout
    refine ⟨text, htext, ?_⟩
    iterate 3 apply infix_append_left
    exact infix_append_right List.infix_rfl _

theorem Shows.infix (hr : r.Unvisited)
    (h : Shows root block level) (hout : r.render root = .ok out) :
    ∃ text, r.renderBlock level block = .ok text ∧ text.toList <:+: out.toList := by
  induction h with
  | root => exact ⟨out, hout, List.infix_rfl⟩
  | @inside block inner level _ node _ hnode hinner ih =>
    obtain ⟨text, htext, hinfix⟩ := ih
    obtain ⟨line, children⟩ := block
    rw [Renderer.renderBlock_eq] at htext
    obtain ⟨parts, hparts, rfl⟩ := map_eq_ok_iff.1 htext
    obtain ⟨_, markup, hmarkup, hmem⟩ := Renderer.exists_renderNode_of_mem hnode hparts
    obtain ⟨inside, hinside, hpart⟩ := hinner.infix hr hmarkup
    exact ⟨inside, hinside, (hpart.trans (Markup.infix_joinLines hmem)).trans hinfix⟩

/-! ### Conditionals in templates -/

theorem Control.any_isBranch_of_continues {expression : String}
    (h : (Control.classify expression).any Control.continues = true) :
    (Control.classify expression).any Control.isBranch = true := by
  obtain ⟨control, hcontrol, h⟩ := (Option.any_eq_true _ _).1 h
  rw [hcontrol]
  cases control with
  | elseBranch | elseIfBranch => rfl
  | _ => cases h

/-- In the document of a template, the blocks of branches hold nodes. -/
theorem branches_of_parse {layout : Layout} {source : String}
    (h : parse layout source = .ok root) {branches : List Code}
    (hcodes : ∀ c ∈ branches, c ∈ root.codes)
    (hbranches : ∀ c ∈ branches, (Control.classify c.expression).any Control.isBranch = true) :
    Renderer.Branches branches := by
  intro c hc
  obtain ⟨control, hcontrol, -⟩ := (Option.any_eq_true _ _).1 (hbranches c hc)
  exact ⟨not_verbatim_of_classify h (hcodes c hc) hcontrol, hbranches c hc⟩

/-- A conditional in the document of a template, somewhere in a block that is rendered:
its branches are rendered one below the other, and they are closed once, behind the last
one, if that one has a block. Otherwise they are not closed. -/
theorem conditional_closed_by_last_block {layout : Layout} {source : String} {root : Block}
    (hroot : parse layout source = .ok root) {r : Renderer} (hr : r.Unvisited) {line level : Nat}
    {before after : List Node} {first : Code} {others : List Code}
    (hshows : Shows root ⟨line, before ++ ((first :: others).map .code ++ after)⟩ level)
    (hfirst : Control.classify first.expression = some .ifBranch)
    (hothers : ∀ c ∈ others, (Control.classify c.expression).any Control.continues = true)
    (hafter : after.head?.any continuesConditional = false) :
    r.renderBlock level ⟨line, before ++ ((first :: others).map .code ++ after)⟩ = (do
      let above ← r.renderBlock level ⟨line, before⟩
      let chain ← r.chainMarkup level (first :: others)
      let below ← r.renderBlock level ⟨line, after⟩
      return joinLines [above, chain, below]) ∧
    ∀ out, r.render root = .ok out →
      ∃ chain, r.chainMarkup level (first :: others) = .ok chain ∧
        chain.toList <:+: out.toList := by
  have hcodes : ∀ c ∈ first :: others, c ∈ root.codes := by
    intro c hc
    have hmem : .code c ∈ before ++ ((first :: others).map Node.code ++ after) :=
      List.mem_append_right _ (List.mem_append_left _ (List.mem_map_of_mem hc))
    exact hshows.mem_codes (Node.mem_codesOf hmem c.mem_codes)
  have hbranches : Renderer.Branches (first :: others) := by
    refine branches_of_parse hroot hcodes (List.forall_mem_cons.2 ⟨?_, fun c hc => ?_⟩)
    · rw [hfirst]
      rfl
    · exact Control.any_isBranch_of_continues (hothers c hc)
  have hblock := hr.renderBlock_of_chain level line before after hbranches
    (by rw [hfirst]; rfl) hothers hafter
  refine ⟨hblock, fun out hout => ?_⟩
  obtain ⟨text, htext, hinfix⟩ := hshows.infix hr hout
  rw [hblock] at htext
  obtain ⟨above, -, htext⟩ := bind_eq_ok_iff.1 htext
  obtain ⟨chain, hchain, htext⟩ := bind_eq_ok_iff.1 htext
  obtain ⟨below, -, htext⟩ := bind_eq_ok_iff.1 htext
  obtain rfl := Except.ok.inj htext
  exact ⟨chain, hchain, (Markup.infix_joinLines (by simp)).trans hinfix⟩

/-- A conditional inside a tag, with a branch in the middle that has no block. -/
theorem conditional_closed_by_last_block_nested :
    let p (line : Nat) (name : String) : Node :=
      .tag { Element.ofName name line with text := none, code := none, children := ⟨line, []⟩ }
    let first : Code := ⟨{ line := 2, expression := " if ($a):", buffered := false },
      some ⟨3, [p 3 "p"]⟩⟩
    let second : Code := ⟨{ line := 4, expression := " else if ($b):", buffered := false }, none⟩
    let third : Code := ⟨{ line := 5, expression := " else:", buffered := false },
      some ⟨6, [p 6 "q"]⟩⟩
    let block : Block := ⟨2, [.code first, .code second, .code third]⟩
    let root : Block := ⟨1, [.tag { Element.ofName "div" 1 with
      text := none, code := none, children := block }]⟩
    parse {} "div\n  - if ($a):\n    p\n  - else if ($b):\n  - else:\n    q" = .ok root ∧
      Shows root block 1 ∧
      ∀ out, ({} : Renderer).render root = .ok out →
        ∃ chain, ({} : Renderer).chainMarkup 1 [first, second, third] = .ok chain ∧
          chain.toList <:+: out.toList := by
  intro p first second third block root
  have hroot : parse {} "div\n  - if ($a):\n    p\n  - else if ($b):\n  - else:\n    q" =
      .ok root :=
    Outline.parse_print {} (k := 2) (by decide) (o := .cons (.tag "div" none)
      (.cons (.code "if ($a):" false) (.cons (.tag "p" none) .nil .nil)
        (.cons (.code "else if ($b):" false) .nil
          (.cons (.code "else:" false) (.cons (.tag "q" none) .nil .nil) .nil))) .nil)
      (by decide +kernel)
  have hshows : Shows root ⟨2, [] ++ ([first, second, third].map .code ++ [])⟩ 1 :=
    .inside .root List.mem_cons_self (.tag _ (by decide) nofun)
  exact ⟨hroot, hshows, (conditional_closed_by_last_block hroot (fun _ => rfl) hshows
    (by decide +kernel) (by decide +kernel) rfl).2⟩

/-- A conditional whose last branch has no block: nothing closes it. -/
theorem conditional_left_open :
    (Engine.plain {}).render "- if ($a):\n  p\n- else:" =
      .ok "<?php if ($a): ?>\n  <p></p>\n<?php else: ?>" :=
  Engine.render_of_attempt 4 (by decide +kernel)

end Offside
