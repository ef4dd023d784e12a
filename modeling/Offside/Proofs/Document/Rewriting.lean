import Offside.Document.Basic

/-!
# Rewriting documents

A rewriting says what becomes of tags and of code, each seen as it stands in the document
with all that is inside it. `Block.rewrite` is the document in which all of them have been
rewritten, also where they are never rendered.
-/

set_option autoImplicit false

namespace Offside

/-- What becomes of tags and of code. By default they stay as they are. -/
structure Rewriting where
  tag : Tag → Element := Tag.toElement
  code : Code → Statement := Code.toStatement

mutual

/-- The node with all tags and all code rewritten. -/
def Node.rewrite (ρ : Rewriting) : Node → Node
  | .group block => .group (block.rewrite ρ)
  | .tag tag => .tag (tag.rewrite ρ)
  | .text text => .text text
  | .code code => .code (code.rewrite ρ)
  | .comment comment => .comment (comment.rewrite ρ)
  | .doctype doctype => .doctype doctype
  | .filter filter => .filter (filter.rewrite ρ)

/-- The tag rewritten, and so what is inside it. -/
def Tag.rewrite (ρ : Rewriting) : Tag → Tag
  | ⟨element, text, code, children⟩ =>
    ⟨ρ.tag ⟨element, text, code, children⟩, text,
      match code with
      | some code => some (code.rewrite ρ)
      | none => none,
      children.rewrite ρ⟩

/-- The code rewritten, and so the block below. -/
def Code.rewrite (ρ : Rewriting) : Code → Code
  | ⟨statement, block⟩ =>
    ⟨ρ.code ⟨statement, block⟩,
      match block with
      | some block => some (block.rewrite ρ)
      | none => none⟩

/-- The comment with the block below it rewritten. -/
def Comment.rewrite (ρ : Rewriting) : Comment → Comment
  | ⟨remark, block⟩ =>
    ⟨remark,
      match block with
      | some block => some (block.rewrite ρ)
      | none => none⟩

/-- The filter with what it is applied to rewritten. -/
def Filter.rewrite (ρ : Rewriting) : Filter → Filter
  | ⟨directive, body⟩ => ⟨directive, body.rewrite ρ⟩

/-- The block with all of its nodes rewritten. -/
def Block.rewrite (ρ : Rewriting) : Block → Block
  | ⟨line, children⟩ => ⟨line, Node.rewriteAll ρ children⟩

/-- Some nodes rewritten. -/
def Node.rewriteAll (ρ : Rewriting) : List Node → List Node
  | [] => []
  | node :: nodes => node.rewrite ρ :: Node.rewriteAll ρ nodes

end

end Offside
