import Offside.Proofs.Attribute.Grouped
import Offside.Proofs.Document.Shape

/-!
# The heads of tags

A tag starts with its head: a name, and behind it shorthands and attribute lists in any order. A
head without a name stands for a `div`. `headsOf` finds the heads among the lexemes of a template,
and `Head.element` is the tag that a head stands for.

Whatever else a document holds, its tags are those of the heads, each in front of the tags inside
it (`elements_of_parse`). This is shown for every phrase that is read: behind it, the heads of the
lexemes that are left are still to come (`Phrase.Tells`).
-/

set_option autoImplicit false

namespace Offside

open Attribute (Entry)

/-! ### Heads -/

/-- Numbers of spaces around the parentheses of an attribute list. -/
structure Spacing where
  /-- In front of the opening parenthesis. -/
  before : Nat := 0
  /-- Behind the opening parenthesis. -/
  opening : Nat := 0
  /-- In front of the closing parenthesis. -/
  closing : Nat := 0
deriving DecidableEq, Repr

/-- A shorthand or an attribute list behind the name of a tag. -/
inductive Part where
  | id (name : String)
  | className (name : String)
  | list (raw : String) (spacing : Spacing := {})
deriving DecidableEq, Repr

/-- The settings that a part makes, as they are written. -/
def Part.settings : Part → List Entry
  | id name => [("id", .text name)]
  | className name => [("class", .text name)]
  | list raw _ => Attribute.entriesOf raw

/-- The head of a tag. -/
structure Head where
  line : Nat
  name : String
  parts : List Part
deriving DecidableEq, Repr

/-- The tag that a head stands for. -/
def Head.element (h : Head) : Element :=
  (Element.ofName h.name h.line).addAll (h.parts.map Part.settings)

/-- The part that a token is. -/
def Token.part? : Token → Option Part
  | .idName name => some (.id name)
  | .className name => some (.className name)
  | .attributes raw _ => some (.list raw)
  | _ => none

/-- The parts that lexemes start with. -/
def partsOf : List Lexeme → List Part
  | [] => []
  | l :: ls =>
    match l.token.part? with
    | some part => part :: partsOf ls
    | none => []

/-- The heads of lexemes. Shorthands start a head, unless they are `owned` by the one in front. -/
def headsOf (owned : Bool) : List Lexeme → List Head
  | [] => []
  | l :: ls =>
    match l.token with
    | .tag name => ⟨l.line, name, partsOf ls⟩ :: headsOf true ls
    | .idName _ | .className _ =>
      if owned then headsOf true ls else ⟨l.line, "div", partsOf (l :: ls)⟩ :: headsOf true ls
    | .attributes _ _ => headsOf owned ls
    | _ => headsOf false ls

/-- The tag of a node, without what is inside it. -/
def Node.element? : Node → Option Element
  | .tag t => some t.toElement
  | _ => none

/-- The tags of a document, each in front of those inside it. -/
def Block.elements (root : Block) : List Element :=
  (Place.nodes root.places).filterMap Node.element?

namespace Reading

open Result

/-! ### Heads among lexemes -/

variable {l : Lexeme} {ls : List Lexeme} {e : Element}

/-- Whether a head starts at a lexeme of this kind, if no tag stands in front. -/
def startsHead : Token.Kind → Bool
  | .tag | .idName | .className => true
  | _ => false

theorem headsOf_cons_of_not_startsHead (h : startsHead l.kind = false) (ls : List Lexeme) :
    headsOf false (l :: ls) = headsOf false ls := by
  unfold Lexeme.kind at h
  rw [headsOf]
  cases htoken : l.token with
  | tag name | idName name | className name =>
    rw [htoken] at h
    cases h
  | _ => rfl

/-- Behind a tag, a part of its head is passed over. -/
theorem headsOf_true_of_isMark (h : isMark l.kind = true) (ls : List Lexeme) :
    headsOf true (l :: ls) = headsOf true ls := by
  unfold Lexeme.kind at h
  rw [headsOf]
  cases htoken : l.token
  case idName name | className name | attributes raw as => rfl
  all_goals
    rw [htoken] at h
    cases h

/-- At a lexeme that is no part of a head, it does not matter what stands in front. -/
theorem headsOf_true_of_not_isMark (h : isMark l.kind = false) (ls : List Lexeme) :
    headsOf true (l :: ls) = headsOf false (l :: ls) := by
  unfold Lexeme.kind at h
  rw [headsOf, headsOf]
  cases htoken : l.token
  case idName name | className name | attributes raw as =>
    rw [htoken] at h
    cases h
  all_goals rfl

/-! ### Parts of heads -/

theorem mark_eq_add {part : Part} (hl : l.Decoded) (h : l.token.part? = some part) :
    mark e l = e.add part.settings := by
  unfold mark
  cases htoken : l.token with
  | idName name | className name =>
    rw [htoken] at h
    obtain rfl := Option.some.inj h
    rfl
  | attributes raw as =>
    rw [htoken] at h
    obtain rfl := Option.some.inj h
    rw [hl raw as htoken]
    rfl
  | _ =>
    rw [htoken] at h
    cases h

/-! ### What a reading tells -/

/-- The tags that lexemes stand for. -/
def tagsOf (owned : Bool) (ls : List Lexeme) : List Element :=
  (headsOf owned ls).map Head.element

/-- Behind some nodes, which hold the tags of the heads on the way, the other heads are still to
come. -/
def Cursor.Tells (c : Cursor) (nodes : List Node) (c' : Cursor) : Prop :=
  tagsOf false c.rest = nodes.filterMap Node.element? ++ tagsOf false c'.rest

namespace Cursor

variable {c c' c'' : Cursor} {xs ys : List Node}

theorem Tells.trans (h : c.Tells xs c') (h' : c'.Tells ys c'') : c.Tells (xs ++ ys) c'' := by
  unfold Tells at h h' ⊢
  rw [h, h', List.filterMap_append, List.append_assoc]

/-- Nodes that are no tags can be left out. -/
theorem Tells.of_cons {n : Node} (h : c.Tells xs c') (hn : n.element? = none) :
    c.Tells (n :: xs) c' := by
  unfold Tells
  rw [h, List.filterMap_cons_none hn]

/-- A lexeme at which no head starts tells nothing. -/
theorem tells_take (h : startsHead c.next.kind = false) : c.Tells [] c.take := by
  unfold next at h
  show tagsOf false c.rest = tagsOf false (c.rest.drop 1)
  cases hrest : c.rest with
  | nil => rfl
  | cons l rest =>
    rw [hrest] at h
    have hl : startsHead l.kind = false := h
    rw [tagsOf, headsOf_cons_of_not_startsHead hl]
    rfl

theorem tells_take_of_token {token : Token} (h : c.next.token = token)
    (htoken : startsHead token.kind = false) : c.Tells [] c.take :=
  tells_take (by rwa [Lexeme.kind, h])

end Cursor

/-- The parts of a head are added to its tag, and count for no other one. -/
theorem Reads.tells_marks {c c' : Cursor} {marks : List Lexeme}
    (hreads : Reads (.run isMark) c marks c') (h : ∀ l ∈ c.rest, l.Decoded) (e : Element) :
    marks.foldl mark e = e.addAll ((partsOf c.rest).map Part.settings) ∧
      tagsOf true c.rest = tagsOf false c'.rest := by
  induction hreads using Reads.run_induction generalizing e with
  | @stop c hgoes hp =>
    unfold Cursor.next at hp
    show e = _ ∧ tagsOf true c.rest = tagsOf false c.rest
    cases hrest : c.rest with
    | nil => exact ⟨rfl, rfl⟩
    | cons l rest =>
      rw [hrest] at hp
      replace hp : isMark l.kind = false := hp
      rw [tagsOf, headsOf_true_of_not_isMark hp]
      refine ⟨?_, rfl⟩
      have hpart : l.token.part? = none := by
        unfold Lexeme.kind at hp
        cases htoken : l.token <;> first | rfl | (rw [htoken] at hp; cases hp)
      rw [partsOf, hpart]
      rfl
  | @more c c' taken hp heos _ ih =>
    have hrest := Cursor.rest_eq_of_next heos
    rw [hrest] at h ⊢
    obtain ⟨hl, hothers⟩ := List.forall_mem_cons.1 h
    obtain ⟨hmarks, htags⟩ := ih hothers (mark e c.next)
    refine ⟨?_, by rw [tagsOf, headsOf_true_of_isMark hp, ← htags]; rfl⟩
    obtain ⟨part, hpart⟩ : ∃ part, c.next.token.part? = some part := by
      unfold Lexeme.kind at hp
      cases htoken : c.next.token <;> first | exact ⟨_, rfl⟩ | (rw [htoken] at hp; cases hp)
    rw [List.foldl_cons, hmarks, partsOf, hpart, mark_eq_add hl hpart]
    rfl

/-! ### Nodes and blocks -/

/-- A tag, its code and its block hold the tags of the heads behind its own. -/
theorem tells_tag {e : Element} {text : Option Text} {code : Option Code} {children : Block}
    {c c' : Cursor} (h : c.Tells (code.toList.flatMap (Node.preorder ∘ .code) ++
      Place.nodes children.places) c') :
    e :: tagsOf false c.rest =
      (Node.tag ⟨e, text, code, children⟩).preorder.filterMap Node.element? ++
        tagsOf false c'.rest := by
  have htext : (text.toList.map Node.text).filterMap Node.element? = [] := by
    cases text <;> rfl
  have hnodes : (Node.tag ⟨e, text, code, children⟩).preorder.filterMap Node.element? =
      e :: (code.toList.flatMap (Node.preorder ∘ .code) ++ Place.nodes children.places).filterMap
        Node.element? := by
    show e :: (Place.nodes (Tag.mk e text code children).inner).filterMap Node.element? = _
    rw [Tag.nodes_inner, List.filterMap_append, List.filterMap_append, htext, List.append_nil,
      List.filterMap_append]
  rw [hnodes, List.cons_append, ← h]

/-- What is read holds the tags of the heads on the way. A tag starts behind its name, so its own
head is found among the parts that follow. -/
def Phrase.Tells : (p : Phrase) → Cursor → p.Value → Cursor → Prop
  | run p, c, _, c' => (∀ kind, p kind = true → startsHead kind = false) → c.Tells [] c'
  | text, c, _, c' => c.Tells [] c'
  | filter _ _, c, f, c' => c.Tells (Node.filter f).preorder c'
  | node, c, n, c' => c.Tells (n.toList.flatMap Node.preorder) c'
  | tag e, c, t, c' => t.toElement = e.addAll ((partsOf c.rest).map Part.settings) ∧
    t.toElement :: tagsOf true c.rest =
      (Node.tag t).preorder.filterMap Node.element? ++ tagsOf false c'.rest
  | inline, c, x, c' => c.Tells (x.2.toList.flatMap (Node.preorder ∘ .code)) c'
  | code _, c, x, c' => c.Tells (Node.code x).preorder c'
  | comment _, c, x, c' => c.Tells (Node.comment x).preorder c'
  | below, c, block, c' => c.Tells (Place.nodes (block.elim [] Block.places)) c'
  | nodes, c, ns, c' | document, c, ns, c' => c.Tells (ns.flatMap Node.preorder) c'

theorem Reads.tells {p : Phrase} {c c' : Cursor} {a : p.Value} (hreads : Reads p c a c')
    (h : ∀ l ∈ c.rest, l.Decoded) : p.Tells c a c' := by
  -- What is said of all lexemes holds for those that are left.
  have hleft : ∀ {p : Phrase} {c c' : Cursor} {a : p.Value}, (∀ l ∈ c.rest, l.Decoded) →
      Reads p c a c' → ∀ l ∈ c'.rest, l.Decoded :=
    fun h hreads l hl => h l (hreads.suffix.subset hl)
  have htake : ∀ {c : Cursor}, (∀ l ∈ c.rest, l.Decoded) → ∀ l ∈ c.take.rest, l.Decoded :=
    fun h l hl => h l (List.mem_of_mem_drop hl)
  have hnewlines : ∀ kind : Token.Kind, decide (kind = .newline) = true →
      startsHead kind = false := by
    intro kind hkind
    rw [of_decide_eq_true hkind]
    rfl
  -- A node by itself, whose first lexeme starts no head.
  have hsome : ∀ {n : Node} {c c' : Cursor} {token : Token}, c.next.token = token →
      startsHead token.kind = false → c.take.Tells n.preorder c' →
      Phrase.node.Tells c (some n) c' := by
    intro n c c' token htoken hstarts hn
    show c.Tells ((some n).toList.flatMap Node.preorder) c'
    simpa using (Cursor.tells_take_of_token htoken hstarts).trans hn
  induction hreads with
  | stop => exact fun _ => rfl
  | more hp heos _ ih =>
    intro hheads
    exact (Cursor.tells_take (hheads _ hp)).trans (ih (htake h) hheads)
  | text _ _ ih =>
    refine ih h fun kind hkind => ?_
    cases kind <;> first | rfl | cases hkind
  -- A filter is applied to a text, so that it holds no tags.
  | filterList htoken _ ih =>
    have htext := (Cursor.tells_take_of_token htoken rfl).trans (ih (htake h))
    exact (htext.of_cons rfl).of_cons rfl
  | filterText _ _ _ ih => exact ((ih h).of_cons rfl).of_cons rfl
  | @element c c' name t htoken hreads ih =>
    obtain ⟨ht, htags⟩ := ih (htake h)
    have hrest := Cursor.rest_eq_of_next (Reads.element htoken hreads).ready.1
    have hhead : tagsOf false c.rest = t.toElement :: tagsOf true c.take.rest := by
      rw [hrest, ht, tagsOf, headsOf, htoken]
      rfl
    show c.Tells ((some (Node.tag t)).toList.flatMap Node.preorder) c'
    unfold Cursor.Tells
    rw [hhead, htags]
    simp
  | @shorthand c c' t hkind hreads ih =>
    -- The shorthand is the first part of the head of a `div`.
    obtain ⟨ht, htags⟩ := ih (htake h)
    have hrest := Cursor.rest_eq_of_next (Reads.shorthand hkind hreads).ready.1
    have hl : c.next.Decoded := h _ (by rw [hrest]; exact .head _)
    have hhead : tagsOf false c.rest = t.toElement :: tagsOf true c.take.rest := by
      unfold Lexeme.kind at hkind
      rw [hrest, ht]
      cases htoken : c.next.token
      case idName name | className name =>
        rw [mark_eq_add hl (congrArg Token.part? htoken), tagsOf, headsOf, htoken, partsOf, htoken]
        rfl
      all_goals
        rw [htoken] at hkind
        cases hkind
    show c.Tells ((some (Node.tag t)).toList.flatMap Node.preorder) c'
    unfold Cursor.Tells
    rw [hhead, htags]
    simp
  | doctype htoken | words htoken => exact hsome htoken rfl (Cursor.Tells.of_cons rfl rfl)
  | filter htoken _ ih | comment htoken _ ih | code htoken _ ih =>
    exact hsome htoken rfl (ih (htake h))
  | pipe htoken _ ih => exact hsome htoken rfl ((ih (htake h)).of_cons rfl)
  | indent htoken => exact Cursor.tells_take_of_token htoken rfl
  | @tag e c c₁ c₂ c₃ c' marks _ text code block hmarks hinline hreads hbelow _ ihinline
      ihnewlines ihbelow =>
    have h₁ := hleft h hmarks
    have h₂ := hleft h₁ hinline
    obtain ⟨he, htags⟩ := hmarks.tells_marks h e
    have hcode := (ihinline h₁).trans (ihnewlines h₂ hnewlines)
    rw [List.append_nil] at hcode
    have hchildren : c₃.Tells
        (Place.nodes (block.getD ⟨(marks.foldl mark e).line, []⟩).places) c' := by
      have hblock := ihbelow (hleft h₂ hreads)
      cases block <;> exact hblock
    refine ⟨he, ?_⟩
    rw [htags]
    exact tells_tag (hcode.trans hchildren)
  | inlineText htoken => exact Cursor.tells_take_of_token htoken rfl
  | inlineCode htoken _ ih =>
    have hcode := (Cursor.tells_take_of_token htoken rfl).trans (ih (htake h))
    simpa [Phrase.Tells] using hcode
  | inlineNone | noBlock | nil => exact rfl
  | codeText _ hreads _ ihnewlines ih =>
    exact (((ihnewlines h hnewlines).trans (ih (hleft h hreads))).of_cons rfl).of_cons rfl
  | @codeBlock _ _ _ _ _ block _ hreads _ ihnewlines ih =>
    have hblock := (ihnewlines h hnewlines).trans (ih (hleft h hreads))
    cases block <;> exact Cursor.Tells.of_cons hblock rfl
  | @commentBlock _ _ _ _ _ block _ hreads _ ihnewlines ih =>
    have hblock := (ihnewlines h hnewlines).trans (ih (hleft h hreads))
    cases block <;> exact Cursor.Tells.of_cons hblock rfl
  | commentText _ hreads _ _ ihnewlines ih =>
    exact (((ihnewlines h hnewlines).trans (ih (hleft h hreads))).of_cons rfl).of_cons rfl
  | commentNone _ _ _ ihnewlines => exact (ihnewlines h hnewlines).of_cons rfl
  | @block c c₁ children hkind hreads ih =>
    -- The lexeme that closes the block is an outdent, or the end of the template.
    have hclose : c₁.Tells [] (c₁.close c.place) := by
      refine Cursor.tells_take (c := c₁) ?_
      rcases hreads.halts.2 with hkind | hkind <;> rw [hkind] <;> rfl
    have hnodes := ((Cursor.tells_take (by rw [hkind]; rfl)).trans (ih (htake h))).trans hclose
    show c.Tells (Place.nodes (Block.mk c.next.line children).places) (c₁.close c.place)
    rw [Block.nodes_places]
    simpa using hnodes
  | newline hkind _ ih => exact (Cursor.tells_take (by rw [hkind]; rfl)).trans (ih (htake h))
  | @cons c c₁ c' first others hfirst _ ihfirst ihothers =>
    show c.Tells ((first.toList ++ others).flatMap Node.preorder) c'
    rw [List.flatMap_append]
    exact Cursor.Tells.trans (ihfirst h) (ihothers (hleft (c := c.seen) h hfirst))
  | document _ _ ih => exact ih h
  | @outdent c c₁ c' ns others hnodes hkind _ ihnodes ihothers =>
    have hout := Cursor.tells_take (c := c₁) (by rw [hnodes.halts.2.resolve_right hkind]; rfl)
    show c.Tells ((ns ++ others).flatMap Node.preorder) c'
    rw [List.flatMap_append]
    exact Cursor.Tells.trans (ihnodes h) (hout.trans (ihothers (htake (hleft h hnodes))))

/-- Nothing comes behind the end of a template. -/
theorem headsOf_of_eos {ls : List Lexeme} (hls : ls.Pairwise fun l _ => l.kind ≠ .eos)
    (h : ∀ l ∈ ls.head?, l.kind = .eos) : headsOf false ls = [] := by
  cases ls with
  | nil => rfl
  | cons l ls =>
    have hl : l.kind = .eos := h l rfl
    cases ls with
    | nil =>
      rw [headsOf_cons_of_not_startsHead (by rw [hl]; rfl)]
      rfl
    | cons l' ls => exact absurd hl ((List.pairwise_cons.1 hls).1 l' List.mem_cons_self)

end Reading

theorem Scanner.pairwise_ne_eos_tape (s : Scanner) :
    s.tape.lexemes.Pairwise fun l _ => l.kind ≠ .eos := by
  obtain ⟨front, hfront, htape⟩ := s.exists_front_of_scans
  have hpairwise : front.Pairwise fun t _ => t.kind ≠ .eos :=
    List.pairwise_of_forall_mem_list fun t ht _ _ => hfront t ht
  rw [Tape.lexemes, List.pairwise_map]
  obtain ⟨e, -, hscans⟩ | ⟨-, t, -, hscans⟩ := htape
  · rwa [hscans]
  · rw [hscans, List.pairwise_append]
    exact ⟨hpairwise, List.pairwise_singleton _ _, fun t ht _ _ => hfront t ht⟩

/-- The tags of a document are those of the heads of its template, each in front of the tags
inside it. -/
theorem elements_of_parse {layout : Layout} {source : String} {root : Block} {ls : List Lexeme}
    (h : parse layout source = .ok root) (hls : tokenize layout source = .ok ls) :
    root.elements = (headsOf false ls).map Head.element := by
  obtain ⟨-, c, hgives⟩ := gives_of_parse h
  rw [tokenize_eq_tape, Tape.result_eq_ok_iff] at hls
  obtain ⟨-, rfl⟩ := hls
  have hreads : Reading.Reads .document _ root.children c := .of_gives trivial hgives
  have htells : Reading.tagsOf false _ = _ :=
    hreads.tells (Scanner.decoded_of_mem_tape (Scanner.sound_ofSource layout source))
  -- What is left is the end of the template.
  have hnone : Reading.tagsOf false c.rest = [] := by
    rw [Reading.tagsOf, Reading.headsOf_of_eos]
    · rfl
    · exact (Scanner.pairwise_ne_eos_tape _).sublist hreads.suffix.sublist
    · intro l hl
      have heos := hreads.halts.2
      rw [Reading.Cursor.next, List.headD_eq_head?_getD, hl] at heos
      exact heos
  rw [hnone, List.append_nil] at htells
  rw [Block.elements, Block.nodes_places]
  exact htells.symm

end Offside
