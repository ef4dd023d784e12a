import Offside.Proofs.Markup.Rendering

/-!
# Rendering siblings

The nodes of a block are rendered one after the other, each knowing whether the next
one goes on with its conditional. `renderAhead` renders some of them in front of others,
and `renderAhead_append` is how a block is taken apart.

What stands behind a node matters to branches of conditionals only
(`renderNode_of_not_isBranch`), and to those it is the difference of one closing line
(`renderNode_of_isBranch`).

`renderBlock_hidden_comment` is what follows for hidden comments. They have no markup,
but they do part a branch from the branch behind it: then the first one is closed as if
its conditional ended there (`hidden_comment_parts_conditional`).
-/

set_option autoImplicit false

namespace Offside

open Offside.Character (trimSpaces trimLeadingSpaces trimTrailingSpaces)

/-! ### Lines of markup -/

/-- Markup of several nodes, one below the other. Empty markup leaves no line behind. -/
def Markup.joinLines (parts : List String) : String :=
  "\n".intercalate (parts.filter (· ≠ ""))

namespace Markup

theorem joinLines_cons_empty (parts : List String) : joinLines ("" :: parts) = joinLines parts := by
  simp [joinLines]

theorem joinLines_singleton (a : String) : joinLines [a] = a := by
  by_cases ha : a = "" <;> simp [joinLines, ha]

variable {a : String} {parts : List String}

theorem joinLines_pair {b : String} (ha : a ≠ "") (hb : b ≠ "") :
    joinLines [a, b] = a ++ "\n" ++ b := by
  simp [joinLines, ha, hb]

theorem joinLines_eq_empty_iff : joinLines parts = "" ↔ parts.filter (· ≠ "") = [] := by
  show "\n".intercalate (parts.filter (· ≠ "")) = "" ↔ _
  cases h : parts.filter (· ≠ "") with
  | nil => simp
  | cons a others =>
    have ha : a ≠ "" := by
      have hmem : a ∈ parts.filter (· ≠ "") := h ▸ List.mem_cons_self
      simpa using (List.mem_filter.1 hmem).2
    cases others <;> simp [ha]

theorem joinLines_cons_ne_empty
    (h : a ≠ "" ∨ joinLines parts ≠ "") : joinLines (a :: parts) ≠ "" := by
  intro heq
  have hnil := joinLines_eq_empty_iff.1 heq
  rw [List.filter_cons] at hnil
  split at hnil
  · cases hnil
  · next ha =>
    have ha : a = "" := by simpa using ha
    rcases h with h | h
    · exact h ha
    · exact h (joinLines_eq_empty_iff.2 hnil)

/-- Lines can be joined in two parts. -/
theorem joinLines_append (xs ys : List String) :
    joinLines (xs ++ ys) = joinLines [joinLines xs, joinLines ys] := by
  by_cases hx : joinLines xs = ""
  · rw [hx, joinLines_cons_empty, joinLines_singleton]
    simp only [joinLines, List.filter_append, joinLines_eq_empty_iff.1 hx, List.nil_append]
  by_cases hy : joinLines ys = ""
  · have hpair : joinLines [joinLines xs, ""] = joinLines xs := by simp [joinLines.eq_1 [_, _], hx]
    rw [hy, hpair]
    simp only [joinLines, List.filter_append, joinLines_eq_empty_iff.1 hy, List.append_nil]
  · rw [joinLines_pair hx hy]
    simp only [joinLines, List.filter_append]
    exact String.intercalate_append_of_ne_nil (mt joinLines_eq_empty_iff.2 hx)
      (mt joinLines_eq_empty_iff.2 hy)

theorem joinLines_cons (a : String) (parts : List String) :
    joinLines (a :: parts) = joinLines [a, joinLines parts] := by
  rw [← List.singleton_append, joinLines_append, joinLines_singleton]

theorem infix_joinLines_pair (a b : String) :
    a.toList <:+: (joinLines [a, b]).toList ∧ b.toList <:+: (joinLines [a, b]).toList := by
  by_cases ha : a = ""
  · rw [ha, joinLines_cons_empty, joinLines_singleton]
    exact ⟨List.nil_infix, List.infix_rfl⟩
  by_cases hb : b = ""
  · have hpair : joinLines [a, ""] = a := by simp [joinLines, ha]
    rw [hb, hpair]
    exact ⟨List.infix_rfl, List.nil_infix⟩
  · rw [joinLines_pair ha hb, String.toList_append, String.toList_append]
    refine ⟨?_, (List.suffix_append _ _).isInfix⟩
    rw [List.append_assoc]
    exact (List.prefix_append _ _).isInfix

/-- Each part is found among the lines. -/
theorem infix_joinLines {part : String} (h : part ∈ parts) :
    part.toList <:+: (joinLines parts).toList := by
  induction parts with
  | nil => cases h
  | cons a parts ih =>
    rw [joinLines_cons]
    rcases List.mem_cons.1 h with rfl | h
    · exact (infix_joinLines_pair part _).1
    · exact (ih h).trans (infix_joinLines_pair a _).2

theorem joinLines_concat_append (parts : List String) (ha : a ≠ "") (b : String) :
    joinLines (parts ++ [a ++ b]) = joinLines (parts ++ [a]) ++ b := by
  have hab : a ++ b ≠ "" := by simp [ha]
  rw [joinLines_append, joinLines_append, joinLines_singleton, joinLines_singleton]
  by_cases hparts : joinLines parts = ""
  · rw [hparts, joinLines_cons_empty, joinLines_cons_empty, joinLines_singleton,
      joinLines_singleton]
  · rw [joinLines_pair hparts hab, joinLines_pair hparts ha]
    exact String.append_assoc.symm

end Markup

/-! ### Branches of conditionals -/

/-- Whether a structure is a branch of a conditional, be it the first or a further one. -/
def Control.isBranch : Control → Bool
  | ifBranch | elseBranch | elseIfBranch => true
  | _ => false

theorem Control.closing_eq_endif_iff (control : Control) :
    control.closing = "endif" ↔ control.isBranch = true := by
  cases control <;> decide

/-- Whether code is a branch of a conditional with a block of nodes, which has to be
closed unless another branch follows. -/
def Code.isBranch (c : Code) : Bool :=
  c.block.isSome && !c.verbatim && (Control.classify c.expression).any Control.isBranch

/-- Whether a node is a branch of a conditional with a block of nodes. -/
def Node.isBranch : Node → Bool
  | .code c => c.isBranch
  | _ => false

namespace Renderer

open Markup (joinLines joinLines_append joinLines_cons_empty joinLines_pair joinLines_singleton)

/-- What closes a conditional. -/
def closer (r : Renderer) (level : Nat) : String :=
  "\n" ++ r.layout.indent level ++ "<?php endif; ?>"

theorem trimTrailingSpaces_trimLeadingSpaces (s : String) :
    trimTrailingSpaces (trimLeadingSpaces s) = trimSpaces s := by
  simp [trimTrailingSpaces, trimLeadingSpaces, trimSpaces, Character.trim]

variable {c : Code} {r : Renderer} {node : Node}

/-- The frame of a branch. Only what closes it depends on what follows. -/
theorem codeFrame_of_isBranch (r : Renderer) (level : Nat) (elseFollows : Bool)
    (h : c.isBranch = true) :
    r.codeFrame level elseFollows c.toStatement =
      ("<?php " ++ trimSpaces c.expression ++ " ?>\n",
        if elseFollows then "" else r.closer level) := by
  simp only [Code.isBranch, Bool.and_eq_true, Bool.not_eq_true', Option.any_eq_true] at h
  obtain ⟨⟨-, hverbatim⟩, control, hclassify, hbranch⟩ := h
  have hclosing : control.closing = "endif" := (Control.closing_eq_endif_iff control).2 hbranch
  have hcloser :
      "\n" ++ r.layout.indent level ++ "<?php " ++ "endif" ++ "; ?>" = r.closer level := by
    simp only [closer, String.append_assoc]
    rfl
  simp [codeFrame, hverbatim, hclassify, hclosing, hcloser, trimTrailingSpaces_trimLeadingSpaces]

/-- The frame of any other code with a block does not depend on what follows. -/
theorem codeFrame_of_not_isBranch (r : Renderer) (level : Nat) {head : Statement} {block : Block}
    (h : (Code.mk head (some block)).isBranch = false) (elseFollows : Bool) :
    r.codeFrame level elseFollows head = r.codeFrame level false head := by
  unfold codeFrame
  cases hverbatim : head.verbatim with
  | true => rfl
  | false =>
    cases hclassify : Control.classify head.expression with
    | none => rfl
    | some control =>
      have hclosing : control.closing ≠ "endif" := by
        rw [Ne, Control.closing_eq_endif_iff]
        simpa [Code.isBranch, hverbatim, hclassify] using h
      simp [hclosing]

/-- Whether another branch follows does not matter to a node that is no branch. -/
theorem renderNode_of_not_isBranch (hr : r.Unvisited) (level : Nat)
    (h : node.isBranch = false) (elseFollows : Bool) :
    r.renderNode level elseFollows node = r.renderNode level false node := by
  cases node with
  | code c =>
    obtain ⟨head, block⟩ := c
    cases block with
    | none =>
      show r.renderCode level elseFollows _ = r.renderCode level false _
      rw [hr.renderCode_none, hr.renderCode_none]
    | some block =>
      show r.renderCode level elseFollows _ = r.renderCode level false _
      rw [hr.renderCode_some, hr.renderCode_some, codeFrame_of_not_isBranch r level h]
  | _ => exact r.renderNode_of_not_code level elseFollows false nofun

/-- A branch that is followed by another one is not closed. -/
theorem renderNode_of_isBranch (hr : r.Unvisited) (level : Nat) (h : node.isBranch = true) :
    r.renderNode level false node = (r.renderNode level true node).map (· ++ r.closer level) := by
  cases node with
  | code c =>
    obtain ⟨head, block⟩ := c
    cases block with
    | none => cases h
    | some block =>
      show r.renderCode level false _ = (r.renderCode level true _).map _
      rw [hr.renderCode_some, hr.renderCode_some, codeFrame_of_isBranch r level false h,
        codeFrame_of_isBranch r level true h]
      cases r.renderBlock (level + 1) block <;> simp [Except.map]
  | _ => cases h

/-! ### Nodes in front of others -/

/-- The markup of each of some nodes in front of others. If `elseFollows`, the first node
behind them is a further branch of a conditional. -/
def renderAhead (r : Renderer) (level : Nat) (elseFollows : Bool) :
    List Node → Except RenderError (List String)
  | [] => return []
  | node :: nodes => do
    let first ←
      r.renderNode level ((nodes.head?.map continuesConditional).getD elseFollows) node
    let others ← r.renderAhead level elseFollows nodes
    return first :: others

/-- At the end of a block, nothing follows. -/
theorem getD_continuesConditional (nodes : List Node) :
    (nodes.head?.map continuesConditional).getD false = nodes.head?.any continuesConditional := by
  cases nodes <;> rfl

/-- The markup of a block is that of its nodes, one below the other. -/
theorem renderBlock_eq (r : Renderer) (level line : Nat) (nodes : List Node) :
    r.renderBlock level ⟨line, nodes⟩ = (r.renderAhead level false nodes).map joinLines := by
  -- Each node is rendered with what is known of the one behind it.
  have hnodes : r.renderAhead level false nodes =
      (withNext nodes).mapM fun child => r.renderNode level child.2 child.1 := by
    induction nodes with
    | nil => rfl
    | cons node nodes ih =>
      rw [withNext, List.mapM_cons, renderAhead, ih, getD_continuesConditional]
  rw [renderBlock, renderNode_eq_step, hnodes]
  rfl

theorem renderAhead_append (r : Renderer) (level : Nat) (elseFollows : Bool) (xs ys : List Node) :
    r.renderAhead level elseFollows (xs ++ ys) = (do
      let before ← r.renderAhead level ((ys.head?.map continuesConditional).getD elseFollows) xs
      let after ← r.renderAhead level elseFollows ys
      return before ++ after) := by
  induction xs with
  | nil => simp [renderAhead]
  | cons node xs ih =>
    have hnext : ((xs ++ ys).head?.map continuesConditional).getD elseFollows =
        (xs.head?.map continuesConditional).getD
          ((ys.head?.map continuesConditional).getD elseFollows) := by
      cases xs <;> rfl
    rw [List.cons_append, renderAhead, renderAhead, hnext, ih]
    simp

variable {nodes : List Node} {level : Nat} {elseFollows : Bool}

/-- Whether another branch follows matters to the last of some nodes only. -/
theorem renderAhead_of_not_isBranch (hr : r.Unvisited) (level : Nat)
    (h : nodes.getLast?.any Node.isBranch = false) (elseFollows : Bool) :
    r.renderAhead level elseFollows nodes = r.renderAhead level false nodes := by
  rcases List.eq_nil_or_concat' nodes with rfl | ⟨before, node, rfl⟩
  · rfl
  · have hnode : node.isBranch = false := by simpa using h
    simp only [renderAhead_append, List.head?_cons, Option.map_some, Option.getD_some]
    simp only [renderAhead, List.head?_nil, Option.map_none, Option.getD_none,
      renderNode_of_not_isBranch hr level hnode elseFollows]

theorem Unvisited.ne_empty_of_code (hr : r.Unvisited) {markup : String}
    (h : r.renderNode level elseFollows (.code c) = .ok markup) : markup ≠ "" := by
  obtain ⟨head, block⟩ := c
  have h : r.renderCode level elseFollows ⟨head, block⟩ = .ok markup := h
  cases block with
  | none =>
    rw [hr.renderCode_none] at h
    obtain rfl := Except.ok.inj h
    simp [directive]
  | some block =>
    rw [hr.renderCode_some] at h
    obtain ⟨inner, -, rfl⟩ := map_eq_ok_iff.1 h
    have hbefore : (r.codeFrame level elseFollows head).1 ≠ "" := by
      unfold codeFrame
      split
      · simp
      · split <;> simp
    simp [hbefore]

/-- Only code is a branch, and only code goes on with a conditional. -/
theorem exists_code_of_any {p : Node → Bool} {o : Option Node} (h : o.any p = true)
    (hp : p = Node.isBranch ∨ p = continuesConditional) : ∃ c, o = some (.code c) := by
  obtain ⟨node, rfl, hnode⟩ := (Option.any_eq_true _ _).1 h
  cases node with
  | code c => exact ⟨c, rfl⟩
  | _ => rcases hp with rfl | rfl <;> cases hnode

/-- Nodes with code among them have some markup. -/
theorem Unvisited.joinLines_ne_empty (hr : r.Unvisited) (hc : .code c ∈ nodes)
    {parts : List String} (h : r.renderAhead level elseFollows nodes = .ok parts) :
    joinLines parts ≠ "" := by
  induction nodes generalizing parts with
  | nil => cases hc
  | cons node nodes ih =>
    rw [renderAhead] at h
    obtain ⟨first, hfirst, h⟩ := bind_eq_ok_iff.1 h
    obtain ⟨others, hothers, h⟩ := bind_eq_ok_iff.1 h
    obtain rfl := Except.ok.inj h
    refine Markup.joinLines_cons_ne_empty ?_
    rcases List.mem_cons.1 hc with rfl | hc
    · exact .inl (hr.ne_empty_of_code hfirst)
    · exact .inr (ih hc hothers)

/-- If a branch is the last of some nodes, they are closed by its closing line, unless
another branch follows. -/
theorem renderAhead_of_isBranch (hr : r.Unvisited) (level : Nat)
    (h : nodes.getLast?.any Node.isBranch = true) :
    (r.renderAhead level false nodes).map joinLines =
      (r.renderAhead level true nodes).map fun parts => joinLines parts ++ r.closer level := by
  rcases List.eq_nil_or_concat' nodes with rfl | ⟨before, node, rfl⟩
  · cases h
  · have hnode : node.isBranch = true := by simpa using h
    simp only [renderAhead_append, List.head?_cons, Option.map_some, Option.getD_some]
    simp only [renderAhead, List.head?_nil, Option.map_none, Option.getD_none,
      renderNode_of_isBranch hr level hnode]
    cases r.renderAhead level (continuesConditional node) before with
    | error e => rfl
    | ok parts =>
      cases hlast : r.renderNode level true node with
      | error e => rfl
      | ok last =>
        have hne : last ≠ "" := by
          cases node with
          | code c => exact hr.ne_empty_of_code hlast
          | _ => cases hnode
        exact congrArg Except.ok (Markup.joinLines_concat_append parts hne (r.closer level))

/-- Each node of a block is rendered, and its markup is part of the markup of the block. -/
theorem exists_renderNode_of_mem (h : node ∈ nodes) {parts : List String}
    (hparts : r.renderAhead level elseFollows nodes = .ok parts) :
    ∃ elseFollows' markup, r.renderNode level elseFollows' node = .ok markup ∧ markup ∈ parts := by
  induction nodes generalizing parts with
  | nil => cases h
  | cons first nodes ih =>
    rw [renderAhead] at hparts
    obtain ⟨markup, hfirst, hparts⟩ := bind_eq_ok_iff.1 hparts
    obtain ⟨others, hothers, hparts⟩ := bind_eq_ok_iff.1 hparts
    obtain rfl := Except.ok.inj hparts
    rcases List.mem_cons.1 h with rfl | h
    · exact ⟨_, markup, hfirst, List.mem_cons_self⟩
    · obtain ⟨elseFollows', markup', hnode, hmem⟩ := ih h hothers
      exact ⟨elseFollows', markup', hnode, List.mem_cons_of_mem markup hmem⟩

/-- A block taken apart: what follows the first nodes matters to the last of them. -/
theorem renderBlock_append (r : Renderer) (level line : Nat) (xs ys : List Node) :
    r.renderBlock level ⟨line, xs ++ ys⟩ = (do
      let before ← r.renderAhead level (ys.head?.any continuesConditional) xs
      let after ← r.renderBlock level ⟨line, ys⟩
      return joinLines [joinLines before, after]) := by
  rw [renderBlock_eq, renderBlock_eq, renderAhead_append, getD_continuesConditional]
  cases r.renderAhead level (ys.head?.any continuesConditional) xs with
  | error e => rfl
  | ok before =>
    cases r.renderAhead level false ys with
    | error e => rfl
    | ok after => exact congrArg Except.ok (joinLines_append before after)

/-- Where no conditional goes on, a block is what both of its parts are. -/
theorem renderBlock_append_apart (r : Renderer) (level line : Nat) (xs : List Node)
    {ys : List Node} (h : ys.head?.any continuesConditional = false) :
    r.renderBlock level ⟨line, xs ++ ys⟩ = (do
      let front ← r.renderBlock level ⟨line, xs⟩
      let back ← r.renderBlock level ⟨line, ys⟩
      return joinLines [front, back]) := by
  rw [renderBlock_append, h, renderBlock_eq r level line xs]
  cases r.renderAhead level false xs <;> rfl

/-- A block taken apart between nodes with some code on both sides. -/
theorem Unvisited.renderBlock_append_of_code (hr : r.Unvisited) (level line : Nat)
    {xs ys : List Node} {d : Code} (hc : .code c ∈ xs) (hd : .code d ∈ ys) :
    r.renderBlock level ⟨line, xs ++ ys⟩ = (do
      let front ← (r.renderAhead level (ys.head?.any continuesConditional) xs).map joinLines
      let back ← r.renderBlock level ⟨line, ys⟩
      return front ++ "\n" ++ back) := by
  rw [renderBlock_append, renderBlock_eq]
  cases hx : r.renderAhead level (ys.head?.any continuesConditional) xs with
  | error e => rfl
  | ok before =>
    cases hy : r.renderAhead level false ys with
    | error e => rfl
    | ok after =>
      exact congrArg Except.ok
        (joinLines_pair (hr.joinLines_ne_empty hc hx) (hr.joinLines_ne_empty hd hy))

/-! ### Hidden comments -/

/-- A hidden comment in front of all other nodes is not seen. -/
theorem renderBlock_hidden_cons (hr : r.Unvisited) (level line : Nat)
    (nodes : List Node) {comment : Comment} (h : comment.buffered = false) :
    r.renderBlock level ⟨line, .comment comment :: nodes⟩ = r.renderBlock level ⟨line, nodes⟩ := by
  rw [renderBlock_eq, renderBlock_eq, renderAhead, renderNode_comment,
    hr.renderComment_hidden level h]
  cases r.renderAhead level false nodes with
  | error e => rfl
  | ok parts => exact congrArg Except.ok (joinLines_cons_empty parts)

/-- A hidden comment among the nodes of a block is not seen, unless it stands behind a
branch of a conditional and in front of a further branch. There it leaves a line of its
own: the branch before it is closed, and so are those behind. -/
theorem renderBlock_hidden_comment {r : Renderer} (hr : r.Unvisited) (level line : Nat)
    (before after : List Node) {comment : Comment} (hhidden : comment.buffered = false) :
    let bare := r.renderBlock level ⟨line, before ++ after⟩
    let commented := r.renderBlock level ⟨line, before ++ .comment comment :: after⟩
    let parts := before.getLast?.any Node.isBranch && after.head?.any continuesConditional
    (parts = false → commented = bare) ∧
      (parts = true →
        ∃ opened : Except RenderError String,
          r.renderBlock level ⟨line, before⟩ = opened.map (· ++ r.closer level) ∧
          bare = (do
            let front ← opened
            let back ← r.renderBlock level ⟨line, after⟩
            return front ++ "\n" ++ back) ∧
          commented = (do
            let front ← opened
            let back ← r.renderBlock level ⟨line, after⟩
            return front ++ r.closer level ++ "\n" ++ back)) := by
  intro bare commented parts
  have hbare : bare = _ := renderBlock_append r level line before after
  have hcommented : commented = _ :=
    renderBlock_append r level line before (.comment comment :: after)
  rw [renderBlock_hidden_cons hr level line after hhidden] at hcommented
  constructor
  · intro hparts
    rw [hbare, hcommented]
    cases hnext : after.head?.any continuesConditional with
    | false => rfl
    | true =>
      have hbranch : before.getLast?.any Node.isBranch = false := by
        simpa [parts, hnext] using hparts
      rw [renderAhead_of_not_isBranch hr level hbranch true]
      rfl
  · intro hparts
    obtain ⟨hbranch, hnext⟩ := Bool.and_eq_true_iff.1 hparts
    obtain ⟨c, hlast⟩ := exists_code_of_any hbranch (.inl rfl)
    obtain ⟨d, hhead⟩ := exists_code_of_any hnext (.inr rfl)
    have hc := List.mem_of_getLast? hlast
    have hd := List.mem_of_head? hhead
    have hclosed := renderAhead_of_isBranch hr level hbranch
    refine ⟨(r.renderAhead level true before).map joinLines, ?_, ?_, ?_⟩
    · rw [renderBlock_eq, hclosed]
      cases r.renderAhead level true before <;> rfl
    · rw [← hnext]
      exact hr.renderBlock_append_of_code level line hc hd
    · have hparted : commented = _ :=
        hr.renderBlock_append_of_code level line hc (List.mem_cons_of_mem (.comment comment) hd)
      rw [hparted, renderBlock_hidden_cons hr level line after hhidden]
      show ((r.renderAhead level false before).map joinLines >>= _) = _
      rw [hclosed]
      cases r.renderAhead level true before <;> rfl

/-- Between other nodes than branches, a hidden comment is not seen. -/
theorem renderBlock_hidden_comment_loop :
    let loop : Node := .code ⟨{ line := 1, expression := "while ($a):", buffered := false },
      some ⟨2, [.text ⟨2, ["one"]⟩]⟩⟩
    let branch : Node := .code ⟨{ line := 4, expression := "else:", buffered := false },
      some ⟨5, [.text ⟨5, ["two"]⟩]⟩⟩
    let comment : Comment := ⟨{ line := 3, body := "note", buffered := false }, none⟩
    let r : Renderer := {}
    r.Unvisited ∧ comment.buffered = false ∧
      r.renderBlock 0 ⟨1, [loop, .comment comment, branch]⟩ =
        r.renderBlock 0 ⟨1, [loop, branch]⟩ := by
  intro loop branch comment r
  have hr : r.Unvisited := fun _ => rfl
  exact ⟨hr, rfl, (renderBlock_hidden_comment hr 0 1 [loop] [branch] rfl).1 (by decide +kernel)⟩

/-- A hidden comment between two branches of a conditional: the conditional is closed in
front of its last branch, and once more behind it. -/
theorem hidden_comment_parts_conditional :
    let first : Node := .code ⟨{ line := 1, expression := "if ($a):", buffered := false },
      some ⟨2, [.text ⟨2, ["one"]⟩]⟩⟩
    let last : Node := .code ⟨{ line := 4, expression := "else:", buffered := false },
      some ⟨5, [.text ⟨5, ["two"]⟩]⟩⟩
    let comment : Comment := ⟨{ line := 3, body := "note", buffered := false }, none⟩
    let r : Renderer := {}
    r.Unvisited ∧
      r.renderBlock 0 ⟨1, [first, last]⟩ =
        .ok "<?php if ($a): ?>\n  one\n<?php else: ?>\n  two\n<?php endif; ?>" ∧
      r.renderBlock 0 ⟨1, [first, .comment comment, last]⟩ =
        .ok ("<?php if ($a): ?>\n  one\n<?php endif; ?>\n" ++
          "<?php else: ?>\n  two\n<?php endif; ?>") := by
  intro first last comment r
  refine ⟨fun _ => rfl, ?_, ?_⟩
  · exact renderNode_of_attempt 4 (by decide +kernel)
  · exact renderNode_of_attempt 4 (by decide +kernel)

end Renderer

end Offside
