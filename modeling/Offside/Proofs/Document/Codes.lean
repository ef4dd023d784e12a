import Offside.Proofs.Document.Blocks

/-!
# The code in a document

`Block.codes` is all code in a document, at any depth. In the document of a template,
code takes the lines below as they are if and only if its token opens a verbatim region
(`verbatim_of_parse`); in other trees the two are independent of each other.

Control structures end in a colon, and what opens a verbatim region ends in a backslash.
So in the document of a template the block of a control structure holds nodes
(`not_verbatim_of_classify`).
-/

set_option autoImplicit false

namespace Offside

open Offside.Character

/-! ### All code of a tree -/

mutual

/-- All code of a node, at any depth. -/
def Node.codes : Node → List Code
  | .group block => block.codes
  | .tag tag => tag.codes
  | .text _ => []
  | .code code => code.codes
  | .comment comment => comment.codes
  | .doctype _ => []
  | .filter filter => filter.codes

/-- All code of a tag. -/
def Tag.codes : Tag → List Code
  | ⟨_, _, code, children⟩ =>
    (match code with
      | some code => code.codes
      | none => []) ++ children.codes

/-- Code and all code below it. -/
def Code.codes : Code → List Code
  | ⟨statement, block⟩ => ⟨statement, block⟩ ::
    (match block with
      | some block => block.codes
      | none => [])

/-- All code below a comment. -/
def Comment.codes : Comment → List Code
  | ⟨_, block⟩ =>
    match block with
    | some block => block.codes
    | none => []

/-- All code that a filter is applied to. -/
def Filter.codes : Filter → List Code
  | ⟨_, body⟩ => body.codes

/-- All code of a block. -/
def Block.codes : Block → List Code
  | ⟨_, children⟩ => Node.codesOf children

/-- All code of some nodes. -/
def Node.codesOf : List Node → List Code
  | [] => []
  | node :: nodes => node.codes ++ Node.codesOf nodes

end

theorem Code.mem_codes (c : Code) : c ∈ c.codes := by
  obtain ⟨head, block⟩ := c
  cases block <;> exact List.mem_cons_self

theorem Node.codesOf_append (xs ys : List Node) :
    Node.codesOf (xs ++ ys) = Node.codesOf xs ++ Node.codesOf ys := by
  induction xs with
  | nil => rfl
  | cons node xs ih => rw [List.cons_append, codesOf, codesOf, ih, List.append_assoc]

variable {c : Code}

theorem Node.mem_codesOf {node : Node} {nodes : List Node} (h : node ∈ nodes)
    (hc : c ∈ node.codes) : c ∈ Node.codesOf nodes := by
  obtain ⟨before, after, rfl⟩ := List.append_of_mem h
  rw [codesOf_append]
  exact List.mem_append_right _ (List.mem_append_left _ hc)

/-! ### What a reading gives -/

namespace Reading

/-- Code that takes the lines below as they are if its token says so. -/
def Plain (codes : List Code) : Prop :=
  ∀ c ∈ codes, c.verbatim = (Token.code c.expression c.buffered).opensVerbatim

theorem plain_nil : Plain [] :=
  nofun

theorem Plain.append {xs ys : List Code} (hx : Plain xs) (hy : Plain ys) : Plain (xs ++ ys) :=
  fun c hc => (List.mem_append.1 hc).elim (hx c) (hy c)

theorem plain_code {head : Statement} {block : Option Block}
    (hhead : head.verbatim = (Token.code head.expression head.buffered).opensVerbatim)
    (hblock : ∀ b ∈ block, Plain b.codes) : Plain (Code.mk head block).codes := by
  intro c hc
  cases block with
  | none =>
    obtain rfl := List.mem_singleton.1 hc
    exact hhead
  | some b =>
    rcases List.mem_cons.1 hc with rfl | hc
    · exact hhead
    · exact hblock b rfl c hc

theorem plain_comment {head : Remark} {block : Option Block}
    (hblock : ∀ b ∈ block, Plain b.codes) : Plain (Comment.mk head block).codes := by
  cases block with
  | none => exact plain_nil
  | some b => exact hblock b rfl

/-- All code in what is read is plain. Code is so if its own token is. -/
def Phrase.Plain : (p : Phrase) → p.Value → Prop
  | filter _ _, x => Reading.Plain x.codes
  | node, x => ∀ n ∈ x, Reading.Plain n.codes
  | tag _, x => Reading.Plain x.codes
  | inline, x => ∀ y ∈ x.2, Reading.Plain y.codes
  | code head, x => head.verbatim = (Token.code head.expression head.buffered).opensVerbatim →
    Reading.Plain x.codes
  | comment _, x => Reading.Plain x.codes
  | below, x => ∀ b ∈ x, Reading.Plain b.codes
  | nodes, x | document, x => Reading.Plain (Node.codesOf x)
  | _, _ => True

theorem Reads.plain {p : Phrase} {c c' : Cursor} {a : p.Value} (h : Reads p c a c') :
    p.Plain a := by
  induction h with
  | stop | more | text => trivial
  | filterList | filterText => exact plain_nil
  | element _ _ ih | shorthand _ _ ih | filter _ _ ih | comment _ _ ih =>
    rintro n ⟨⟩
    exact ih
  | code _ _ ih =>
    rintro n ⟨⟩
    exact ih rfl
  | doctype | pipe | words =>
    rintro n ⟨⟩
    exact plain_nil
  | indent | inlineText | inlineNone | noBlock => nofun
  | @tag e _ _ _ _ _ marks _ _ code block _ _ _ _ _ ihinline _ ihbelow =>
    have hchildren : Reading.Plain (block.getD ⟨(marks.foldl mark e).line, []⟩).codes := by
      cases block with
      | none => exact plain_nil
      | some b => exact ihbelow b rfl
    cases code with
    | none => exact plain_nil.append hchildren
    | some c => exact (ihinline c rfl).append hchildren
  | inlineCode _ _ ih =>
    rintro x ⟨⟩
    exact ih rfl
  | codeText =>
    intro hhead
    refine plain_code hhead ?_
    rintro b ⟨⟩
    exact plain_nil
  | codeBlock _ _ _ _ ih => exact fun hhead => plain_code hhead ih
  | commentBlock _ _ _ _ ih => exact plain_comment ih
  | commentText =>
    refine plain_comment ?_
    rintro b ⟨⟩
    exact plain_nil
  | commentNone => exact plain_nil
  | block _ _ ih =>
    rintro b ⟨⟩
    exact ih
  | nil => exact plain_nil
  | newline _ _ ih | document _ _ ih => exact ih
  | @cons _ _ _ first _ _ _ ihfirst ihothers =>
    cases first with
    | none => exact ihothers
    | some x => exact (ihfirst x rfl).append ihothers
  | @outdent _ _ _ ns others _ _ _ ihnodes ihothers =>
    show Plain (Node.codesOf (ns ++ others))
    rw [Node.codesOf_append]
    exact ihnodes.append ihothers

end Reading

/-- In the document of a template, code takes the lines below as they are if and only if
its token opens a verbatim region. -/
theorem verbatim_of_parse {layout : Layout} {source : String} {root : Block}
    (h : parse layout source = .ok root) (hc : c ∈ root.codes) :
    c.verbatim = (Token.code c.expression c.buffered).opensVerbatim := by
  obtain ⟨-, cursor, hgives⟩ := gives_of_parse h
  have hc : c ∈ Node.codesOf root.children := by
    obtain ⟨line, children⟩ := root
    exact hc
  exact (Reading.Reads.of_gives (p := .document) trivial hgives).plain c hc

/-! ### Control structures -/

namespace Control

/-- A text that holds something and does not end in a backslash. -/
def Unescaped (cs : List Char) : Prop :=
  cs ≠ [] ∧ cs.getLast? ≠ some '\\'

theorem unescaped_of_suffix {xs ys : List Char} (h : Unescaped ys) : Unescaped (xs ++ ys) := by
  obtain ⟨hne, hlast⟩ := h
  refine ⟨by simp [hne], ?_⟩
  rw [List.getLast?_append_of_ne_nil _ hne]
  exact hlast

variable {cs : List Char}

theorem unescaped_of_trimEnd (h : (trimEnd isSpace cs).getLast? = some ':') : Unescaped cs := by
  rw [trimEnd, List.getLast?_reverse] at h
  constructor
  · rintro rfl
    simp at h
  · intro hlast
    rw [← List.head?_reverse] at hlast
    -- The spaces end at a backslash as well.
    cases hcs : cs.reverse with
    | nil => simp [hcs] at hlast
    | cons c rest =>
      obtain rfl : c = '\\' := by simpa [hcs] using hlast
      rw [hcs, List.dropWhile_cons_of_neg (by decide)] at h
      simp at h

theorem unescaped_of_endsInColon (h : endsInColon cs = true) : Unescaped cs :=
  unescaped_of_trimEnd (beq_iff_eq.1 (Bool.and_eq_true_iff.1 h).2)

theorem unescaped_of_isColon (h : isColon cs = true) : Unescaped cs := by
  have htrim : trimEnd isSpace (cs.dropWhile isSpace) = [':'] := beq_iff_eq.1 h
  rw [← List.takeWhile_append_dropWhile (p := isSpace) (l := cs)]
  exact unescaped_of_suffix (unescaped_of_trimEnd (by rw [htrim]; rfl))

theorem unescaped_of_startsWith {keyword : String} {p : List Char → Bool}
    (hp : ∀ rest, p rest = true → Unescaped rest) (h : startsWith keyword p cs = true) :
    Unescaped cs := by
  obtain ⟨rest, hrest, h⟩ := (Option.any_eq_true _ _).1 h
  rw [after?_eq_some_iff] at hrest
  rw [← List.takeWhile_append_dropWhile (p := isSpace) (l := cs), hrest, ← List.append_assoc]
  exact unescaped_of_suffix (hp rest h)

/-- Control structures end in a colon. -/
theorem unescaped_of_hasShape {control : Control}
    (h : control.hasShape cs = true) : Unescaped cs := by
  have hcondition : ∀ rest, isCondition rest = true → Unescaped rest := fun rest hrest =>
    unescaped_of_endsInColon (Bool.and_eq_true_iff.1 hrest).2
  cases control with
  | ifBranch | forLoop | foreachLoop | switchBlock => exact unescaped_of_startsWith hcondition h
  | elseBranch => exact unescaped_of_startsWith (fun _ => unescaped_of_isColon) h
  | elseIfBranch =>
    exact unescaped_of_startsWith (fun _ => unescaped_of_startsWith hcondition) h
  | whileLoop | caseBranch => exact unescaped_of_startsWith (fun _ => unescaped_of_endsInColon) h

theorem opensVerbatim_of_classify {expression : String} {control : Control}
    (h : classify expression = some control) (buffered : Bool) :
    (Token.code expression buffered).opensVerbatim = false := by
  have hshape : control.hasShape expression.toList = true :=
    List.find?_some (p := fun control : Control => control.hasShape expression.toList) h
  have hlast := (unescaped_of_hasShape hshape).2
  simp [Token.opensVerbatim, hlast]

end Control

/-- In the document of a template, the block of a control structure holds nodes. -/
theorem not_verbatim_of_classify {layout : Layout} {source : String} {root : Block}
    (h : parse layout source = .ok root) (hc : c ∈ root.codes) {control : Control}
    (hcontrol : Control.classify c.expression = some control) : c.verbatim = false :=
  (verbatim_of_parse h hc).trans (Control.opensVerbatim_of_classify hcontrol c.buffered)

end Offside
