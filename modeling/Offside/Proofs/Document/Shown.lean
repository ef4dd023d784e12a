import Offside.Proofs.Document.Reading

/-!
# What documents show

The line numbers in a document are for messages only, and what stands below a hidden comment is
never rendered. `Node.shown` is a node without both. What is read from a lexeme depends on its
line in no other way, so the parts of a document that are read from the same tokens on other
lines show the same. Documents that show the same may still differ in whether there is an empty
text below a hidden comment, or nothing at all.
-/

set_option autoImplicit false

namespace Offside

/-! ### Forgetting lines -/

/-- The text without its line. -/
def Text.unlined (t : Text) : Text :=
  { t with line := 0 }

/-- The document type without its line. -/
def Doctype.unlined (d : Doctype) : Doctype :=
  { d with line := 0 }

/-- The tag without its line. -/
def Element.unlined (e : Element) : Element :=
  { e with line := 0 }

/-- The code without its line. -/
def Statement.unlined (s : Statement) : Statement :=
  { s with line := 0 }

/-- The comment without its line. -/
def Remark.unlined (r : Remark) : Remark :=
  { r with line := 0 }

/-- The filter without its line. -/
def Directive.unlined (d : Directive) : Directive :=
  { d with line := 0 }

mutual

/-- The node without lines, and without what is below hidden comments. -/
def Node.shown : Node → Node
  | .group block => .group block.shown
  | .tag tag => .tag tag.shown
  | .text text => .text text.unlined
  | .code code => .code code.shown
  | .comment comment => .comment comment.shown
  | .doctype doctype => .doctype doctype.unlined
  | .filter filter => .filter filter.shown

/-- What a tag shows, and so what is inside it. -/
def Tag.shown : Tag → Tag
  | ⟨element, text, code, children⟩ =>
    ⟨element.unlined, text.map Text.unlined,
      match code with
      | some code => some code.shown
      | none => none,
      children.shown⟩

/-- What code shows, and so the block below. -/
def Code.shown : Code → Code
  | ⟨statement, block⟩ =>
    ⟨statement.unlined,
      match block with
      | some block => some block.shown
      | none => none⟩

/-- What a comment shows: the block below it only if the comment is not hidden. -/
def Comment.shown : Comment → Comment
  | ⟨remark, block⟩ =>
    ⟨remark.unlined,
      match block with
      | some block => if remark.buffered then some block.shown else none
      | none => none⟩

/-- What a filter shows, and so what it is applied to. -/
def Filter.shown : Filter → Filter
  | ⟨directive, body⟩ => ⟨directive.unlined, body.shown⟩

/-- What a block shows. -/
def Block.shown : Block → Block
  | ⟨_, children⟩ => ⟨0, Node.shownAll children⟩

/-- What some nodes show. -/
def Node.shownAll : List Node → List Node
  | [] => []
  | node :: nodes => node.shown :: Node.shownAll nodes

end

theorem Tag.shown_mk (element : Element) (text : Option Text) (code : Option Code)
    (children : Block) : (Tag.mk element text code children).shown =
      ⟨element.unlined, text.map Text.unlined, code.map Code.shown, children.shown⟩ := by
  cases code <;> rfl

theorem Code.shown_mk (statement : Statement) (block : Option Block) :
    (Code.mk statement block).shown = ⟨statement.unlined, block.map Block.shown⟩ := by
  cases block <;> rfl

/-- Verbatim code shows its text. -/
theorem Code.shown_eq_of_text {head head' : Statement} (hhead : head'.unlined = head.unlined)
    {text text' : Text} (h : text'.unlined = text.unlined) (line line' : Nat) :
    (Code.mk head' (some ⟨line', [.text text']⟩)).shown =
      (Code.mk head (some ⟨line, [.text text]⟩)).shown := by
  show Code.mk head'.unlined (some ⟨0, [.text text'.unlined]⟩) = _
  rw [hhead, h]
  rfl

/-- A comment that is written shows its block. -/
theorem Comment.shown_of_buffered {remark : Remark} (h : remark.buffered = true)
    (block : Option Block) :
    (Comment.mk remark block).shown = ⟨remark.unlined, block.map Block.shown⟩ := by
  cases block <;> simp [shown, h]

/-- A hidden comment does not show its block. -/
theorem Comment.shown_eq_of_hidden {remark remark' : Remark} (h : remark.buffered = false)
    (hremark : remark'.unlined = remark.unlined) (block block' : Option Block) :
    (Comment.mk remark' block').shown = (Comment.mk remark block).shown := by
  have h' : remark'.buffered = false := (congrArg Remark.buffered hremark).trans h
  cases block <;> cases block' <;> simp [shown, h, h', hremark]

/-- A filter shows the text that it is applied to. -/
theorem Filter.shown_eq_of_text {text text' : Text} (h : text'.unlined = text.unlined)
    (line line' : Nat) (name : String) (attributes : Attributes) :
    (Filter.mk ⟨line', name, attributes⟩ (.text text')).shown =
      (Filter.mk ⟨line, name, attributes⟩ (.text text)).shown := by
  show Filter.mk ⟨0, name, attributes⟩ (.text text'.unlined) = _
  rw [h]
  rfl

theorem Block.shown_mk (line : Nat) (children : List Node) :
    (Block.mk line children).shown = ⟨0, children.map Node.shown⟩ := by
  have hall : Node.shownAll children = children.map Node.shown := by
    induction children with
    | nil => rfl
    | cons node nodes ih => rw [Node.shownAll, ih, List.map_cons]
  rw [shown, hall]

/-! ### What lexemes add -/

theorem Element.unlined_setAttribute (e : Element) (key : String) (value : Attribute.Value) :
    (e.setAttribute key value).unlined = e.unlined.setAttribute key value := by
  unfold setAttribute
  split
  · cases classNames? value <;> rfl
  · rfl

theorem Element.unlined_setAttributes (e : Element) (entries : List Attribute.Entry) :
    (e.setAttributes entries).unlined = e.unlined.setAttributes entries := by
  unfold setAttributes
  induction entries generalizing e with
  | nil => rfl
  | cons entry entries ih => rw [List.foldl_cons, List.foldl_cons, ih, unlined_setAttribute]

namespace Reading

/-- Of a lexeme only its token adds to a tag. -/
theorem unlined_mark {e e' : Element} {l l' : Lexeme} (he : e'.unlined = e.unlined)
    (hl : l'.token = l.token) : (mark e' l').unlined = (mark e l).unlined := by
  have hmark : ∀ (e : Element) (l : Lexeme), (mark e l).unlined = mark e.unlined l := by
    intro e l
    unfold mark
    split
    · exact e.unlined_setAttribute _ _
    · exact e.unlined_setAttribute _ _
    · exact e.unlined_setAttributes _
    · rfl
  rw [hmark, hmark, he, mark, mark, hl]

/-- Of a lexeme only its token adds to a text. -/
theorem unlined_addTo {t t' : Text} {l l' : Lexeme} (ht : t'.unlined = t.unlined)
    (hl : l'.token = l.token) : (addTo t' l').unlined = (addTo t l).unlined := by
  have hadd : ∀ (t : Text) (l : Lexeme), (addTo t l).unlined = addTo t.unlined l := by
    intro t l
    unfold addTo
    split <;> rfl
  rw [hadd, hadd, ht, addTo, addTo, hl]

/-- What one lexeme after the other adds depends on their tokens, if this holds of each. -/
theorem foldl_eq_of_tokens {α : Type} {view : α → α} {add : α → Lexeme → α}
    (hadd : ∀ {a a' l l'}, view a' = view a → l'.token = l.token →
      view (add a' l') = view (add a l))
    {ls ls' : List Lexeme} (hls : ls'.map (·.token) = ls.map (·.token)) {a a' : α}
    (ha : view a' = view a) : view (ls'.foldl add a') = view (ls.foldl add a) := by
  induction ls generalizing a a' ls' with
  | nil =>
    obtain rfl := List.map_eq_nil_iff.1 hls
    exact ha
  | cons l ls ih =>
    obtain ⟨l', ls', rfl, hl, hls⟩ := List.map_eq_cons_iff.1 hls
    exact ih hls (hadd ha hl)

end Reading

end Offside
