import Mathlib.Data.List.SplitBy
import Offside.Proofs.Document.Codes
import Offside.Proofs.Markup.Siblings

/-!
# Chains of branches

A second way to render a document. Here the nodes of a block are first put into runs: a
branch of a conditional and the further branches right behind it are one run, a chain
(`Chains.joins`). Each branch is rendered by itself, without knowing what follows, and
each chain is closed once (`Chains.run`).

`render_eq_chains` states that both ways give the same markup, for documents in which
each further branch has a block of its own.
-/

set_option autoImplicit false

namespace Offside

open Offside.Character (trimSpaces)

namespace Chains

open Renderer (continuesConditional directive selfClosingTags)
open Markup (joinLines)

/-- Whether a node goes on with the chain that the node before it belongs to. -/
def joins (a b : Node × String) : Bool :=
  a.1.isBranch && continuesConditional b.1

/-- What stands behind a node at the end of its run. -/
def closing (r : Renderer) (level : Nat) (node : Node) : String :=
  if node.isBranch then r.closer level else ""

/-- The markup of a run, given the markup of each of its nodes. A run of branches is
closed behind the last one. -/
def run (r : Renderer) (level : Nat) (nodes : List (Node × String)) : String :=
  "\n".intercalate (nodes.map (·.2)) ++ nodes.head?.elim "" fun first => closing r level first.1

mutual

/-- The markup of a node by itself. -/
def node (r : Renderer) (level : Nat) : Node → Except RenderError String
  | .group group => block r level group
  | .tag t => tag r level t
  | .text text => r.renderText level text
  | .code c => code r level c
  | .comment c => comment r level c
  | .doctype doctype => r.renderDoctype doctype
  | .filter f => filter r level f

/-- The markup of a tag. Code on its line is a run of its own. -/
def tag (r : Renderer) (level : Nat) : Tag → Except RenderError String
  | ⟨element, text, inline, children⟩ =>
    r.tagAround level element text (!children.children.isEmpty)
      (match inline with
        | some c => some ((code r 0 c).map fun markup => run r 0 [(.code c, markup)])
        | none => none)
      (block r (level + 1) children)

/-- The markup of code. A branch of a conditional is not closed. -/
def code (r : Renderer) (level : Nat) : Code → Except RenderError String
  | ⟨head, below⟩ =>
    match below with
    | some below => do
      let inner ← block r (level + 1) below
      if (Code.mk head (some below)).isBranch then
        return r.layout.indent level ++ "<?php " ++ trimSpaces head.expression ++ " ?>\n" ++ inner
      else
        let frame := r.codeFrame level false head
        return r.layout.indent level ++ frame.1 ++ inner ++ frame.2
    | none => return r.layout.indent level ++ directive head

/-- The markup of a comment. -/
def comment (r : Renderer) (level : Nat) : Comment → Except RenderError String
  | ⟨head, below⟩ =>
    let indent := r.layout.indent level
    if head.buffered then
      match below with
      | some below => do
        let inner ← block r (level + 1) below
        let (before, after) := r.commentFrame level head
        return indent ++ before ++ inner ++ "\n" ++ indent ++ after
      | none => return indent ++ "<!-- " ++ head.body ++ " -->"
    else return ""

/-- The markup that a filter makes of its body, which is a run of its own. -/
def filter (r : Renderer) (level : Nat) : Filter → Except RenderError String
  | ⟨head, body⟩ =>
    match r.filter? head.name with
    | none => throw (.unregisteredFilter head.name)
    | some apply => do
      let markup ← node r (level + 1) body
      return apply (run r (level + 1) [(body, markup)]) head.attributes (r.layout.indent level)

/-- The markup of a block: that of its runs, one below the other. -/
def block (r : Renderer) (level : Nat) : Block → Except RenderError String
  | ⟨_, children⟩ => do
    let markup ← nodes r level children
    return joinLines ((markup.splitBy joins).map (run r level))

/-- Nodes with the markup of each of them by itself. -/
def nodes (r : Renderer) (level : Nat) : List Node → Except RenderError (List (Node × String))
  | [] => return []
  | first :: others => do
    let markup ← node r level first
    let others ← nodes r level others
    return (first, markup) :: others

end

/-! ### Runs -/

theorem run_singleton (r : Renderer) (level : Nat) (node : Node) (markup : String) :
    run r level [(node, markup)] = markup ++ closing r level node := by
  simp [run]

/-- A branch in front of a run that goes on with it. -/
theorem run_cons_cons {r : Renderer} {level : Nat} {a b : Node × String}
    (h : joins a b = true) (hb : b.1.isBranch = true) (others : List (Node × String)) :
    run r level (a :: b :: others) = a.2 ++ "\n" ++ run r level (b :: others) := by
  have ha : a.1.isBranch = true := (Bool.and_eq_true_iff.1 h).1
  simp [run, closing, ha, hb, String.append_assoc]

/-- The first run of some elements grows by an element that the next one goes on with. -/
theorem splitBy_cons_cons {α : Type} {r : α → α → Bool} {a b : α} (h : r a b = true)
    (others : List α) :
    ∃ run runs, (b :: others).splitBy r = (b :: run) :: runs ∧
      (a :: b :: others).splitBy r = (a :: b :: run) :: runs := by
  cases hsplit : (b :: others).splitBy r with
  | nil => simp at hsplit
  | cons first runs =>
    obtain ⟨hflatten, hnil, hruns, hapart⟩ := List.splitBy_eq_iff.1 hsplit
    cases first with
    | nil => simp at hnil
    | cons x run =>
      obtain ⟨rfl, hothers⟩ := List.cons_eq_cons.1 hflatten
      refine ⟨run, runs, rfl, List.splitBy_eq_iff.2 ⟨?_, ?_, ?_, ?_⟩⟩
      · simp [hothers]
      · simpa using hnil
      · intro m hm
        rcases List.mem_cons.1 hm with rfl | hm
        · exact List.isChain_cons_cons.2 ⟨h, hruns _ List.mem_cons_self⟩
        · exact hruns m (List.mem_cons_of_mem _ hm)
      · cases runs with
        | nil => simp
        | cons second runs => simpa using hapart

theorem splitBy_cons_cons_apart {α : Type} {r : α → α → Bool} {a b : α} (h : r a b = false)
    (others : List α) : (a :: b :: others).splitBy r = [a] :: (b :: others).splitBy r := by
  show ([a] ++ b :: others).splitBy r = [a].splitBy r ++ (b :: others).splitBy r
  exact List.splitBy_append_cons others (by simpa using h)

/-- The markup of each of some nodes, where the last of each run is closed. -/
def closed (r : Renderer) (level : Nat) : List (Node × String) → List String
  | [] => []
  | (node, markup) :: others =>
    (markup ++
      if others.head?.any (continuesConditional ·.1) then "" else closing r level node) ::
      closed r level others

theorem run_ne_empty {r : Renderer} {level : Nat} {first : Node × String}
    (h : first.1.isBranch = true) (others : List (Node × String)) :
    run r level (first :: others) ≠ "" := by
  simp [run, closing, h, Renderer.closer]

/-- Nodes and their markup. -/
theorem nodes_eq_ok {r : Renderer} {level : Nat} {children : List Node}
    {parts : List (Node × String)} (h : nodes r level children = .ok parts) :
    parts.map (·.1) = children ∧ ∀ p ∈ parts, node r level p.1 = .ok p.2 := by
  induction children generalizing parts with
  | nil =>
    obtain rfl := Except.ok.inj h
    simp
  | cons first others ih =>
    rw [nodes] at h
    obtain ⟨markup, hfirst, h⟩ := bind_eq_ok_iff.1 h
    obtain ⟨rest, hothers, h⟩ := bind_eq_ok_iff.1 h
    obtain rfl := Except.ok.inj h
    obtain ⟨hnodes, hmarkup⟩ := ih hothers
    exact ⟨congrArg (first :: ·) hnodes, List.forall_mem_cons.2 ⟨hfirst, hmarkup⟩⟩

theorem ne_empty_of_isBranch {r : Renderer} {level : Nat} {branch : Node} {markup : String}
    (h : branch.isBranch = true) (hmarkup : node r level branch = .ok markup) : markup ≠ "" := by
  cases branch with
  | code c =>
    obtain ⟨head, below⟩ := c
    cases below with
    | none => cases h
    | some b =>
      have hbranch : (Code.mk head (some b)).isBranch = true := h
      rw [node, code] at hmarkup
      obtain ⟨inner, -, hmarkup⟩ := bind_eq_ok_iff.1 hmarkup
      rw [if_pos hbranch] at hmarkup
      obtain rfl := Except.ok.inj hmarkup
      simp
  | _ => cases h

theorem map_closing {r : Renderer} {level : Nat} {elseFollows : Bool} {other : Node}
    (h : other.isBranch = false) (markup : Except RenderError String) :
    markup.map (· ++ if elseFollows then "" else closing r level other) = markup := by
  cases markup <;> simp [closing, h, Except.map]

/-- To close each run is to close the last of its nodes. -/
theorem joinLines_runs (r : Renderer) (level : Nat) {parts : List (Node × String)}
    (hfilled : ∀ p ∈ parts, continuesConditional p.1 = true → p.1.isBranch = true)
    (hne : ∀ p ∈ parts, p.1.isBranch = true → p.2 ≠ "") :
    joinLines ((parts.splitBy joins).map (run r level)) = joinLines (closed r level parts) := by
  induction parts with
  | nil => rfl
  | cons a others ih =>
    specialize ih (fun p hp => hfilled p (List.mem_cons_of_mem a hp))
      (fun p hp => hne p (List.mem_cons_of_mem a hp))
    cases others with
    | nil =>
      show joinLines [run r level [a]] = joinLines [_]
      rw [run_singleton]
      rfl
    | cons b others =>
      rw [closed, Markup.joinLines_cons, ← ih]
      show _ = joinLines [_ ++ (if continuesConditional b.1 then "" else _), _]
      cases hjoins : joins a b with
      | true =>
        -- the run of `b` has one more node in front
        obtain ⟨group, groups, hothers, hall⟩ := splitBy_cons_cons hjoins others
        obtain ⟨ha, hb⟩ := Bool.and_eq_true_iff.1 hjoins
        have hbranch := hfilled b (by simp) hb
        rw [hothers, hall, if_pos hb, List.map_cons, List.map_cons, run_cons_cons hjoins hbranch,
          ← Markup.joinLines_pair (hne a (by simp) ha) (run_ne_empty hbranch group),
          Markup.joinLines_cons, ← Markup.joinLines_append, String.append_empty]
        exact Markup.joinLines_cons a.2 _
      | false =>
        have hclosing : (if continuesConditional b.1 then "" else closing r level a.1) =
            closing r level a.1 := by
          cases hb : continuesConditional b.1 with
          | false => rfl
          | true =>
            have ha : a.1.isBranch = false := by simpa [joins, hb] using hjoins
            simp [closing, ha]
        rw [splitBy_cons_cons_apart hjoins, List.map_cons, run_singleton, Markup.joinLines_cons,
          hclosing]

/-! ### Both ways give the same markup -/

/-- Each further branch of a conditional has a block of its own. -/
def Filled (codes : List Code) : Prop :=
  ∀ c ∈ codes, (Control.classify c.expression).any Control.continues = true → c.isBranch = true

/-- The markup of a node in front of others, which is closed if they do not go on with it. -/
theorem renderAhead_cons {r : Renderer} (level : Nat) (first : Node) (others : List Node)
    (hfirst : ∀ elseFollows, r.renderNode level elseFollows first =
      (node r level first).map (· ++ if elseFollows then "" else closing r level first))
    (hothers : r.renderAhead level false others = (nodes r level others).map (closed r level)) :
    r.renderAhead level false (first :: others) =
      (nodes r level (first :: others)).map (closed r level) := by
  rw [Renderer.renderAhead, nodes, hfirst, hothers]
  cases node r level first with
  | error e => rfl
  | ok markup =>
    cases hparts : nodes r level others with
    | error e => rfl
    | ok parts =>
      have hnext : (others.head?.map continuesConditional).getD false =
          parts.head?.any (continuesConditional ·.1) := by
        rw [← (nodes_eq_ok hparts).1]
        cases parts <;> rfl
      rw [hnext]
      rfl

theorem renderBlock_eq {r : Renderer} (level line : Nat) (children : List Node)
    (hfilled : Filled (Node.codesOf children))
    (h : r.renderAhead level false children = (nodes r level children).map (closed r level)) :
    r.renderBlock level ⟨line, children⟩ = block r level ⟨line, children⟩ := by
  rw [Renderer.renderBlock_eq, block, h]
  cases hparts : nodes r level children with
  | error e => rfl
  | ok parts =>
    obtain ⟨hnodes, hmarkup⟩ := nodes_eq_ok hparts
    refine congrArg Except.ok (joinLines_runs r level ?_ ?_).symm
    · rintro ⟨first, markup⟩ hp hcontinues
      have hmem : first ∈ children := hnodes ▸ List.mem_map_of_mem hp
      cases first with
      | code c => exact hfilled c (Node.mem_codesOf hmem c.mem_codes) hcontinues
      | _ => cases hcontinues
    · intro p hp hbranch
      exact ne_empty_of_isBranch hbranch (hmarkup p hp)

section

variable {r : Renderer} (hr : r.Unvisited)

include hr

/-- Code by itself. It is closed, unless it is a branch that another one follows. -/
theorem renderCode_eq (level : Nat) (elseFollows : Bool) (head : Statement) (below : Option Block)
    (h : ∀ b ∈ below, r.renderBlock (level + 1) b = block r (level + 1) b) :
    r.renderCode level elseFollows ⟨head, below⟩ =
      (code r level ⟨head, below⟩).map
        (· ++ if elseFollows then "" else closing r level (.code ⟨head, below⟩)) := by
  cases below with
  | none =>
    rw [hr.renderCode_none, code]
    show _ = Except.ok _
    simp [closing, Node.isBranch, Code.isBranch]
  | some b =>
    rw [hr.renderCode_some, h b rfl, code]
    cases block r (level + 1) b with
    | error e => rfl
    | ok inner =>
      show Except.ok _ = (if _ then Except.ok _ else Except.ok _).map _
      cases hbranch : (Code.mk head (some b)).isBranch with
      | true =>
        rw [Renderer.codeFrame_of_isBranch r level elseFollows hbranch]
        simp [closing, Node.isBranch, hbranch, Except.map, String.append_assoc]
      | false =>
        rw [Renderer.codeFrame_of_not_isBranch r level hbranch]
        simp [closing, Node.isBranch, hbranch, Except.map]

theorem renderTag_eq (level : Nat) (element : Element) (text : Option Text)
    (inline : Option Code) (children : Block)
    (hinline : ∀ c ∈ inline, r.renderCode 0 false c =
      (code r 0 c).map (· ++ closing r 0 (.code c)))
    (hchildren : r.renderBlock (level + 1) children = block r (level + 1) children) :
    r.renderTag level ⟨element, text, inline, children⟩ =
      tag r level ⟨element, text, inline, children⟩ := by
  cases inline with
  | none => rw [hr.renderTag_eq, tag, hchildren]; rfl
  | some c =>
    rw [hr.renderTag_eq, tag, hchildren]
    simp only [Option.map_some, hinline c rfl, run_singleton]

theorem renderComment_eq (level : Nat) (head : Remark) (below : Option Block)
    (h : ∀ b ∈ below, r.renderBlock (level + 1) b = block r (level + 1) b) :
    r.renderComment level ⟨head, below⟩ = comment r level ⟨head, below⟩ := by
  cases below with
  | none =>
    rw [Renderer.renderComment_eq, hr.visit, comment]
    rfl
  | some b =>
    rw [Renderer.renderComment_eq, hr.visit, comment, ← h b rfl]
    rfl

theorem renderFilter_eq (level : Nat) (head : Directive) (body : Node)
    (h : r.renderNode (level + 1) false body =
      (node r (level + 1) body).map (· ++ closing r (level + 1) body)) :
    r.renderFilter level ⟨head, body⟩ = filter r level ⟨head, body⟩ := by
  rw [Renderer.renderFilter_eq, hr.visit, filter]
  show (r.findFilter head.name >>= fun _ => (r.renderNode (level + 1) false body).map _) = _
  rw [Renderer.findFilter]
  cases r.filter? head.name with
  | none => rfl
  | some apply =>
    simp only [h, run_singleton]
    cases node r (level + 1) body <;> rfl

end

mutual

theorem renderNode_eq_chains {r : Renderer} (hr : r.Unvisited) (level : Nat) (elseFollows : Bool) :
    (n : Node) → Filled n.codes → r.renderNode level elseFollows n =
      (node r level n).map (· ++ if elseFollows then "" else closing r level n)
  | .group b, h => by
    rw [map_closing rfl, Renderer.renderNode_group]
    exact renderBlock_eq_chains hr level b h
  | .tag t, h => by
    rw [map_closing rfl, Renderer.renderNode_tag]
    exact renderTag_eq_chains hr level t h
  | .text _, _ => by
    rw [map_closing rfl, Renderer.renderNode_text]
    rfl
  | .code c, h => renderCode_eq_chains hr level elseFollows c h
  | .comment c, h => by
    rw [map_closing rfl, Renderer.renderNode_comment]
    exact renderComment_eq_chains hr level c h
  | .doctype _, _ => by
    rw [map_closing rfl, Renderer.renderNode_doctype]
    rfl
  | .filter f, h => by
    rw [map_closing rfl, Renderer.renderNode_filter]
    exact renderFilter_eq_chains hr level f h

theorem renderTag_eq_chains {r : Renderer} (hr : r.Unvisited) (level : Nat) :
    (t : Tag) → Filled t.codes → r.renderTag level t = tag r level t
  | ⟨element, text, none, children⟩, h =>
    renderTag_eq hr level element text none children (fun _ hc => nomatch hc)
      (renderBlock_eq_chains hr (level + 1) children
        (fun c hc => h c (by simpa [Tag.codes] using hc)))
  | ⟨element, text, some c, children⟩, h =>
    renderTag_eq hr level element text (some c) children
      (fun _ hc => by
        obtain rfl := Option.some.inj hc
        exact renderCode_eq_chains hr 0 false c (fun d hd => h d (by simp [Tag.codes, hd])))
      (renderBlock_eq_chains hr (level + 1) children (fun d hd => h d (by simp [Tag.codes, hd])))

theorem renderCode_eq_chains {r : Renderer} (hr : r.Unvisited) (level : Nat) (elseFollows : Bool) :
    (c : Code) → Filled c.codes → r.renderCode level elseFollows c =
      (code r level c).map (· ++ if elseFollows then "" else closing r level (.code c))
  | ⟨head, none⟩, _ => renderCode_eq hr level elseFollows head none (fun _ hb => nomatch hb)
  | ⟨head, some b⟩, h =>
    renderCode_eq hr level elseFollows head (some b) fun _ hb => by
      obtain rfl := Option.some.inj hb
      exact renderBlock_eq_chains hr (level + 1) b (fun d hd => h d (by simp [Code.codes, hd]))

theorem renderComment_eq_chains {r : Renderer} (hr : r.Unvisited) (level : Nat) :
    (c : Comment) → Filled c.codes → r.renderComment level c = comment r level c
  | ⟨head, none⟩, _ => renderComment_eq hr level head none (fun _ hb => nomatch hb)
  | ⟨head, some b⟩, h =>
    renderComment_eq hr level head (some b) fun _ hb => by
      obtain rfl := Option.some.inj hb
      exact renderBlock_eq_chains hr (level + 1) b (fun d hd => h d (by simp [Comment.codes, hd]))

theorem renderFilter_eq_chains {r : Renderer} (hr : r.Unvisited) (level : Nat) :
    (f : Filter) → Filled f.codes → r.renderFilter level f = filter r level f
  | ⟨head, body⟩, h =>
    renderFilter_eq hr level head body (renderNode_eq_chains hr (level + 1) false body h)

theorem renderBlock_eq_chains {r : Renderer} (hr : r.Unvisited) (level : Nat) :
    (b : Block) → Filled b.codes → r.renderBlock level b = block r level b
  | ⟨line, children⟩, h =>
    renderBlock_eq level line children h (renderAhead_eq_chains hr level children h)

theorem renderAhead_eq_chains {r : Renderer} (hr : r.Unvisited) (level : Nat) :
    (children : List Node) → Filled (Node.codesOf children) →
      r.renderAhead level false children = (nodes r level children).map (closed r level)
  | [], _ => rfl
  | first :: others, h =>
    renderAhead_cons level first others
      (fun elseFollows => renderNode_eq_chains hr level elseFollows first fun c hc =>
        h c (List.mem_append_left _ hc))
      (renderAhead_eq_chains hr level others fun c hc => h c (List.mem_append_right _ hc))

end

end Chains

/-- Rendering puts the branches of a conditional into chains: each chain is closed once,
behind its last branch. -/
theorem render_eq_chains {r : Renderer} (hr : r.Unvisited) {root : Block}
    (h : Chains.Filled root.codes) : r.render root = Chains.block r 0 root :=
  Chains.renderBlock_eq_chains hr 0 root h

/-- A chain of three branches with a chain of two inside, behind a loop. -/
theorem render_eq_chains_nested :
    let branch (expression : String) (below : List Node) : Node :=
      .code ⟨{ line := 1, expression, buffered := false }, some ⟨1, below⟩⟩
    let text (line : String) : Node := .text ⟨1, [line]⟩
    let root : Block := ⟨1, [branch "while ($w):" [text "0"],
      branch "if ($a):" [branch "if ($b):" [text "1"], branch "else:" [text "2"]],
      branch "else if ($c):" [text "3"], branch "else:" [text "4"]]⟩
    let r : Renderer := {}
    r.Unvisited ∧ Chains.Filled root.codes ∧ r.render root = Chains.block r 0 root ∧
      Chains.block r 0 root = .ok ("<?php while ($w): ?>\n  0\n<?php endwhile; ?>\n" ++
        "<?php if ($a): ?>\n  <?php if ($b): ?>\n    1\n  <?php else: ?>\n    2\n" ++
        "  <?php endif; ?>\n<?php else if ($c): ?>\n  3\n<?php else: ?>\n  4\n" ++
        "<?php endif; ?>") := by
  intro branch text root r
  have hr : r.Unvisited := fun _ => rfl
  have hfilled : Chains.Filled root.codes := by
    unfold Chains.Filled
    decide +kernel
  exact ⟨hr, hfilled, render_eq_chains hr hfilled, by decide +kernel⟩

end Offside
