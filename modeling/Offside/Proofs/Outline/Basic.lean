import Mathlib.Data.List.Infix
import Offside.Document.Basic
import Offside.Token.Source

/-!
# Outlines

An outline is a forest of items, each of which fits on one line: a tag with a text, a
piece of code or a comment that is shown. It is printed line by line, each item below
the one it belongs to and `k` spaces further in.

`Outline.nodes` is the document that an outline stands for. What becomes of the body
of a comment is left open there, since a body may hold tabs, and tabs do not come back
from a printed outline.
-/

set_option autoImplicit false

namespace Offside

open Offside.Character (isWord isTagName isSpace spaces trimSpaces)

namespace Outline

/-- What one line of an outline says. -/
inductive Item where
  | tag (name : String) (text : Option String)
  | code (expression : String) (buffered : Bool)
  /-- A comment that is shown. -/
  | comment (body : String)
deriving DecidableEq, Repr

/-- A line of an outline, by its depth. -/
structure Rung where
  depth : Nat
  item : Item
deriving DecidableEq, Repr

end Outline

/-- A forest of items: it is empty, or it starts with an item, the outline below that
item, and what comes next at the same level. -/
inductive Outline where
  | nil
  | cons (item : Outline.Item) (below next : Outline)
deriving DecidableEq, Repr

namespace Outline

/-! ### Items that can be printed -/

/-- The names that tags can have, but for those that start a document type. -/
def IsName (name : String) : Prop :=
  name.toList.head?.any isWord ∧ name.toList.tail.all isTagName ∧
    ¬"doctype".toList <+: name.toList

/-- The texts that can stand on the line of a tag. -/
def IsInlineText (text : String) : Prop :=
  text ≠ "" ∧ (∀ c ∈ text.toList.head?, c ≠ ' ' ∧ c ≠ '/' ∧ c ≠ '(') ∧
    (∀ c ∈ text.toList, c ≠ '\n' ∧ c ≠ '\r' ∧ c ≠ '\t') ∧ ¬"\\(".toList <:+: text.toList

/-- The expressions that code can have. One that is hidden must not open a verbatim
region. -/
def IsExpression (expression : String) (buffered : Bool) : Prop :=
  expression ≠ "" ∧ (∀ c ∈ expression.toList, c ≠ '\n' ∧ c ≠ '\r' ∧ c ≠ '\t') ∧
    (buffered = false → expression.toList.getLast? ≠ some '\\')

/-- The bodies that comments can have. -/
def IsBody (body : String) : Prop :=
  (∀ c ∈ body.toList, c ≠ '\n' ∧ c ≠ '\r') ∧ body.toList.head? ≠ some ' ' ∧
    body.toList.getLast? ≠ some ' '

/-- Only the characters of a text have to be looked at, not all there are. -/
instance decidableChars (cs : List Char) (p : Char → Prop) [DecidablePred p] :
    Decidable (∀ c ∈ cs, p c) :=
  List.decidableBAll p cs

instance decidableChar (c? : Option Char) (p : Char → Prop) [DecidablePred p] :
    Decidable (∀ c ∈ c?, p c) :=
  Option.decidableForallMem c?

instance (name : String) : Decidable (IsName name) :=
  inferInstanceAs (Decidable (_ ∧ _ ∧ _))

instance (text : String) : Decidable (IsInlineText text) :=
  inferInstanceAs (Decidable (_ ∧ _ ∧ _ ∧ _))

instance (expression : String) (buffered : Bool) : Decidable (IsExpression expression buffered) :=
  inferInstanceAs (Decidable (_ ∧ _ ∧ _))

instance (body : String) : Decidable (IsBody body) :=
  inferInstanceAs (Decidable (_ ∧ _ ∧ _))

namespace Item

/-- The line of an item. -/
def print : Item → String
  | tag name none => name
  | tag name (some text) => name ++ " " ++ text
  | code expression true => "= " ++ expression
  | code expression false => "- " ++ expression
  | comment body => "/! " ++ body

/-- An item that can be printed: its parts are of their kinds, and its line does not
end in a character that is trimmed from the end of a source. -/
def Valid (i : Item) : Prop :=
  (match i with
    | tag name text => IsName name ∧ ∀ t ∈ text, IsInlineText t
    | code expression buffered => IsExpression expression buffered
    | comment body => IsBody body) ∧
  ∀ c ∈ i.print.toList.getLast?, Source.isMargin c = false

instance : (i : Item) → Decidable i.Valid
  | tag _ _ | code _ _ | comment _ => inferInstanceAs (Decidable (_ ∧ _))

/-- The block below an item on a line. There is none if there are no nodes. -/
def block (line : Nat) (below : List Node) : Option Block :=
  if below.isEmpty then none else some { line := line + 1, children := below }

/-- The node of an item on a line, with the nodes below it. -/
def node (tidy : String → String) (line : Nat) (below : List Node) (i : Item) : Node :=
  match i with
  | tag name text => .tag
      { Element.ofName name line with
        text := text.map fun t => { line, lines := [t] }
        code := none
        children := (block line below).getD { line, children := [] } }
  | code expression buffered =>
    .code
      { line, expression := " " ++ expression, buffered, verbatim := false
        block := block line below }
  | comment body =>
    .comment { line, body := tidy body, buffered := true, block := block line below }

end Item

/-! ### Outlines -/

/-- The number of items of an outline. -/
def size : Outline → Nat
  | nil => 0
  | cons _ below next => 1 + below.size + next.size

/-- The lines of an outline whose first item has the given depth. -/
def rungs (depth : Nat) : Outline → List Rung
  | nil => []
  | cons item below next => ⟨depth, item⟩ :: (below.rungs (depth + 1) ++ next.rungs depth)

/-- What an outline says of all its items holds of its rungs. -/
theorem forall_mem_rungs {p : Item → Prop} {q : Outline → Prop}
    (hq : ∀ {item below next}, q (cons item below next) → p item ∧ q below ∧ q next)
    {o : Outline} (h : q o) (depth : Nat) : ∀ r ∈ o.rungs depth, p r.item := by
  induction o generalizing depth with
  | nil => exact nofun
  | cons item below next ihbelow ihnext =>
    obtain ⟨hitem, hbelow, hnext⟩ := hq h
    rintro r (_ | ⟨_, hmem⟩)
    · exact hitem
    · rcases List.mem_append.1 hmem with hmem | hmem
      · exact ihbelow hbelow _ r hmem
      · exact ihnext hnext _ r hmem

/-- An outline all of whose items can be printed. -/
def Valid : Outline → Prop
  | nil => True
  | cons item below next => item.Valid ∧ below.Valid ∧ next.Valid

instance decidableValid : (o : Outline) → Decidable o.Valid
  | nil => .isTrue trivial
  | cons _ below next =>
    have := decidableValid below
    have := decidableValid next
    inferInstanceAs (Decidable (_ ∧ _ ∧ _))

/-- A printed line. -/
def Rung.print (k : Nat) (r : Rung) : String :=
  spaces (r.depth * k) ++ r.item.print

/-- A printed outline: one item a line, `k` spaces in front for each level. -/
def print (k : Nat) (o : Outline) : String :=
  "\n".intercalate ((o.rungs 0).map (·.print k))

/-- The nodes of an outline whose first item is on the given line. -/
def nodes (tidy : String → String) (line : Nat) : Outline → List Node
  | nil => []
  | cons item below next =>
    item.node tidy line (below.nodes tidy (line + 1)) ::
      next.nodes tidy (line + 1 + below.size)

/-! ### Tabs -/

/-- Whether no body of a comment holds a tab. -/
def TabFree : Outline → Prop
  | nil => True
  | cons item below next =>
    (∀ body, item = .comment body → '\t' ∉ body.toList) ∧ below.TabFree ∧ next.TabFree

/-- A text with spaces for its tabs. -/
def expandTabs (layout : Layout) (text : String) : String :=
  String.ofList (Source.expandTabs layout text.toList)

/-- What comes back of the body of a comment. -/
def tidyBody (layout : Layout) (body : String) : String :=
  trimSpaces (expandTabs layout body)

/-- An item with spaces for its tabs. Only the body of a comment can hold any. -/
def Item.expand (layout : Layout) : Item → Item
  | comment body => comment (expandTabs layout body)
  | i => i

/-- An outline with spaces for its tabs. -/
def expand (layout : Layout) : Outline → Outline
  | nil => nil
  | cons item below next => cons (item.expand layout) (below.expand layout) (next.expand layout)

@[simp] theorem size_expand (layout : Layout) (o : Outline) : (o.expand layout).size = o.size := by
  induction o with
  | nil => rfl
  | cons item below next ihbelow ihnext => rw [expand, size, size, ihbelow, ihnext]

theorem rungs_expand (layout : Layout) (depth : Nat) (o : Outline) :
    (o.expand layout).rungs depth =
      (o.rungs depth).map fun r => { r with item := r.item.expand layout } := by
  induction o generalizing depth with
  | nil => rfl
  | cons item below next ihbelow ihnext =>
    rw [expand, rungs, rungs, ihbelow, ihnext, List.map_cons, List.map_append]

theorem nodes_expand (layout : Layout) (line : Nat) (o : Outline) :
    (o.expand layout).nodes trimSpaces line = o.nodes (tidyBody layout) line := by
  induction o generalizing line with
  | nil => rw [expand, nodes, nodes]
  | cons item below next ihbelow ihnext =>
    rw [expand, nodes, nodes, ihbelow, ihnext, size_expand]
    cases item <;> simp only [Item.expand, Item.node, tidyBody]

theorem expandTabs_of_not_mem (layout : Layout) {cs : List Char} (h : '\t' ∉ cs) :
    Source.expandTabs layout cs = cs := by
  induction cs with
  | nil => rfl
  | cons c cs ih =>
    have hc : c ≠ '\t' := fun hc => h (hc ▸ .head _)
    rw [Source.expandTabs, List.flatMap_cons, if_neg hc]
    exact congrArg (c :: ·) (ih fun hmem => h (.tail _ hmem))

theorem mem_expandTabs {layout : Layout} {cs : List Char} {c : Char}
    (h : c ∈ Source.expandTabs layout cs) : c ≠ '\t' ∧ (c = ' ' ∨ c ∈ cs) := by
  obtain ⟨d, hd, hc⟩ := List.mem_flatMap.1 h
  by_cases htab : d = '\t'
  · rw [if_pos htab] at hc
    obtain rfl := List.eq_of_mem_replicate hc
    exact ⟨by decide, .inl rfl⟩
  · rw [if_neg htab, List.mem_singleton] at hc
    subst hc
    exact ⟨htab, .inr hd⟩

/-- A body comes back as it is if and only if it has no tabs. -/
theorem IsBody.tidyBody_eq_iff (layout : Layout) {body : String} (h : IsBody body) :
    tidyBody layout body = body ↔ '\t' ∉ body.toList := by
  obtain ⟨-, hhead, hlast⟩ := h
  constructor
  · intro heq htab
    rw [← heq, tidyBody, trimSpaces, expandTabs, String.toList_ofList, String.toList_ofList] at htab
    exact (mem_expandTabs (Character.mem_of_mem_trim htab)).1 rfl
  · intro htab
    have hspace : ∀ {o : Option Char}, o ≠ some ' ' → ∀ c ∈ o, isSpace c = false := by
      rintro _ hne c rfl
      simpa [isSpace] using hne
    rw [tidyBody, expandTabs, expandTabs_of_not_mem layout htab, trimSpaces, String.toList_ofList,
      Character.trim_eq_self (hspace hhead) (hspace hlast), String.ofList_toList]

variable {line : Nat} {below below' : List Node}

theorem Item.block_inj : block line below = block line below' ↔ below = below' := by
  cases below <;> cases below' <;> simp [block]

theorem Item.getD_block_inj :
    (block line below).getD ⟨line, []⟩ = (block line below').getD ⟨line, []⟩ ↔
      below = below' := by
  cases below <;> cases below' <;> simp [block]

theorem Item.node_eq_iff {tidy : String → String} {i : Item} :
    i.node tidy line below = i.node id line below' ↔
      (∀ body, i = .comment body → tidy body = body) ∧ below = below' := by
  cases i with
  | tag name text => simp [node, getD_block_inj]
  | code expression buffered => simp [node, block_inj]
  | comment body => simp [node, block_inj]

/-- An outline comes back as it is if and only if its comments have no tabs. -/
theorem nodes_eq_iff (layout : Layout) {o : Outline} (ho : o.Valid) (line : Nat) :
    o.nodes (tidyBody layout) line = o.nodes id line ↔ o.TabFree := by
  induction o generalizing line with
  | nil => simp only [nodes, TabFree]
  | cons item below next ihbelow ihnext =>
    -- Only comments can change, and only by their tabs.
    have hitem : (∀ body, item = .comment body → tidyBody layout body = body) ↔
        ∀ body, item = .comment body → '\t' ∉ body.toList := by
      refine forall_congr' fun body => forall_congr' ?_
      rintro rfl
      exact IsBody.tidyBody_eq_iff layout ho.1.1
    rw [nodes, nodes, List.cons.injEq, Item.node_eq_iff, ihbelow ho.2.1, ihnext ho.2.2, hitem,
      TabFree, and_assoc]

end Outline

end Offside
