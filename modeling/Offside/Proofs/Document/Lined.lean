import Offside.Proofs.Document.Heads
import Offside.Proofs.Token.Unbroken

/-!
# Line breaks in parsed documents

The texts of a document come from tokens, and tokens hold no line break. So a node of a parsed
document starts a new line of markup only where the renderer does (`Node.Lined`).

The text on the line of a tag has a shape of its own. It starts behind the spaces, so it is not
made of spaces only, and it has one more line, an empty one, if a text follows below the tag.
Then the tag has no block (`Tag.Inlined`).
-/

set_option autoImplicit false

namespace Offside

open Character Markup

/-! ### Trimmed texts -/

/-- What is left after dropping starts with something that is not dropped. -/
theorem Character.all_dropWhile {p : Char → Bool} {cs : List Char} (h : cs.dropWhile p ≠ []) :
    (cs.dropWhile p).all p = false := by
  have hhead := List.head?_dropWhile_not p cs
  cases hdrop : cs.dropWhile p with
  | nil => exact absurd hdrop h
  | cons c rest =>
    rw [hdrop] at hhead
    simp [show p c = false from hhead]

/-- A trimmed text that is not empty is not made of spaces only. -/
theorem Character.solid_trimSpaces {s : String} (h : Unbroken s) (hne : trimSpaces s ≠ "") :
    Solid (trimSpaces s) := by
  refine ⟨unbroken_ofList.2 fun hmem => h (mem_of_mem_trim hmem), ?_⟩
  rw [trimSpaces, String.toList_ofList, trim, trimEnd, List.all_reverse]
  refine all_dropWhile fun hnil => hne ?_
  rw [trimSpaces, trim, trimEnd, hnil]
  rfl

/-! ### Nodes -/

/-- A tag by itself without line breaks. -/
structure Element.Unbroken (e : Element) : Prop where
  name : Markup.Unbroken e.name
  attributes : e.attributes.Unbroken

/-- The text on the line of a tag: two lines at most, and if there is a block below, none that is
made of spaces only. -/
structure Tag.Inlined (t : Tag) (text : Text) : Prop where
  length_le : text.lines.length ≤ 2
  solid : t.children.children ≠ [] → ∀ line ∈ text.lines, Solid line

/-- What holds of a node by itself if it is read from a template. -/
def Node.Lined : Node → Prop
  | .group _ => False
  | .tag t => t.Unbroken ∧ ∀ text ∈ t.text, t.Inlined text
  | .text t => ∀ line ∈ t.lines, Markup.Unbroken line
  | .code c => Markup.Unbroken c.expression
  | .comment c => c.body ≠ "" → Solid c.body
  | .doctype _ => True
  | .filter f => ∃ t, f.body = .text t

/-! ### Attributes -/

theorem Attributes.Unbroken.insert {as : Attributes} (h : as.Unbroken) {key : String}
    {value : Attribute.Value} (hkey : Markup.Unbroken key) (hvalue : value.Unbroken) :
    (as.insert key value).Unbroken := by
  intro entry hentry
  rcases mem_entries_insert entry hentry with hmem | rfl
  · exact h entry hmem
  · exact ⟨hkey, hvalue⟩

namespace Element.Unbroken

variable {e : Element}

/-- Setting an attribute brings no line break. -/
theorem setAttribute (h : e.Unbroken) {key : String} {value : Attribute.Value}
    (hkey : Markup.Unbroken key) (hvalue : value.Unbroken) :
    (e.setAttribute key value).Unbroken := by
  unfold Element.setAttribute
  split
  · split
    · exact h
    · next names hnames =>
      have hadded : ∀ name ∈ names, Markup.Unbroken name := by
        cases value with
        | flag on => cases hnames
        | text name =>
          obtain rfl := Option.some.inj hnames
          exact List.forall_mem_singleton.2 hvalue
        | list items =>
          obtain rfl := Option.some.inj hnames
          exact hvalue
      refine ⟨h.name, h.attributes.insert hkey ?_⟩
      show ∀ name ∈ _ ++ names, Markup.Unbroken name
      refine List.forall_mem_append.2 ⟨?_, hadded⟩
      split
      · next before hbefore =>
        obtain ⟨xs, ys, hentries, -⟩ := List.lookup_eq_some_iff.1 hbefore
        exact (h.attributes (key, .list before) (by rw [hentries]; simp)).2
      · exact List.forall_mem_nil _
  · exact ⟨h.name, h.attributes.insert hkey hvalue⟩

/-- Nor does a run of settings. -/
theorem setAttributes (h : e.Unbroken) {entries : List Attribute.Entry}
    (hentries : ∀ entry ∈ entries, Markup.Unbroken entry.1 ∧ entry.2.Unbroken) :
    (e.setAttributes entries).Unbroken := by
  induction entries generalizing e with
  | nil => exact h
  | cons entry entries ih =>
    obtain ⟨hentry, hothers⟩ := List.forall_mem_cons.1 hentries
    exact ih (h.setAttribute hentry.1 hentry.2) hothers

theorem ofName {name : String} (h : Markup.Unbroken name) (line : Nat) :
    (Element.ofName name line).Unbroken := by
  refine ⟨h, ?_⟩
  show ∀ entry ∈ [("id", Attribute.Value.flag false)], _
  exact List.forall_mem_singleton.2 ⟨by decide, trivial⟩

/-- What a short name stands for brings no line break. -/
theorem expand (h : e.Unbroken) : e.expand.Unbroken := by
  have hmeanings : ∀ m ∈ Autotag.meanings, Markup.Unbroken m.2.1 ∧
      ∀ entry ∈ m.2.2, Markup.Unbroken entry.1 ∧ Markup.Unbroken entry.2 := by
    decide +kernel
  cases hshort : e.isShort with
  | false => rwa [Element.expand_of_not_isShort hshort]
  | true =>
    obtain ⟨m, hm, hname⟩ := List.mem_map.1 (e.isShort_iff.1 hshort)
    obtain ⟨htag, himplied⟩ := hmeanings m hm
    rw [Element.expand_of_mem hm hname.symm]
    refine ⟨htag, (h.setAttributes fun entry hentry => ?_).attributes⟩
    obtain ⟨implied, himplied', rfl⟩ := List.mem_map.1 hentry
    exact himplied implied himplied'

end Element.Unbroken

namespace Reading

/-! ### Lexemes -/

/-- A cursor in lexemes without line breaks. -/
def Cursor.Unbroken (c : Cursor) : Prop :=
  ∀ l ∈ c.rest, l.token.Unbroken

theorem Cursor.Unbroken.take {c : Cursor} (h : c.Unbroken) : c.take.Unbroken :=
  fun l hl => h l (List.mem_of_mem_drop hl)

theorem Cursor.Unbroken.next {c : Cursor} (h : c.Unbroken) (heos : c.next.kind ≠ .eos) :
    c.next.token.Unbroken :=
  h _ (by rw [rest_eq_of_next heos]; exact .head _)

/-- What is left to read is part of what there was. -/
theorem Reads.unbroken {p : Phrase} {c c' : Cursor} {a : p.Value} (hreads : Reads p c a c')
    (h : c.Unbroken) : c'.Unbroken :=
  fun l hl => h l (hreads.suffix.subset hl)

/-- A mark without line breaks brings none. -/
theorem unbroken_mark {e : Element} {l : Lexeme} (he : e.Unbroken) (hl : l.token.Unbroken) :
    (mark e l).Unbroken := by
  unfold mark
  split
  · next name htoken =>
    rw [htoken] at hl
    exact he.setAttribute (by decide) hl
  · next name htoken =>
    rw [htoken] at hl
    exact he.setAttribute (by decide) hl
  · next raw as htoken =>
    rw [htoken] at hl
    exact he.setAttributes hl
  · exact he

/-- A text stays without line breaks when a lexeme is added. -/
theorem lined_addTo {text : Text} {l : Lexeme} (htext : (Node.text text).Lined)
    (hl : l.token.Unbroken) : (Node.text (addTo text l)).Lined := by
  unfold addTo
  split
  · next value htoken =>
    rw [htoken] at hl
    exact List.forall_mem_append.2 ⟨htext, List.forall_mem_singleton.2 hl⟩
  · exact htext

/-! ### Nodes and blocks -/

/-- The text on the line of a tag, as long as nothing is known of what follows. -/
structure Inline (text : Text) : Prop where
  length_le : text.lines.length ≤ 1
  solid : ∀ line ∈ text.lines, Solid line

/-- The text on the line of a tag is one line at most, and does not start with a space. -/
theorem inline_ofValue {value : String} (h : Markup.Unbroken value) (line : Nat) :
    Inline (.ofValue (trimLeadingSpaces value) line) := by
  have hsplit : (trimLeadingSpaces value).toList.splitOn '\n' =
      [(trimLeadingSpaces value).toList] :=
    lines_of_unbroken (unbroken_trimLeadingSpaces h)
  unfold Text.ofValue
  by_cases hvalue : trimLeadingSpaces value = ""
  · rw [if_pos hvalue]
    exact ⟨Nat.zero_le 1, List.forall_mem_nil _⟩
  · rw [if_neg hvalue, hsplit]
    refine ⟨Nat.le_refl 1, List.forall_mem_singleton.2 ?_⟩
    rw [String.ofList_toList]
    refine ⟨unbroken_trimLeadingSpaces h, ?_⟩
    rw [trimLeadingSpaces, String.toList_ofList]
    refine all_dropWhile fun hnil => hvalue ?_
    rw [trimLeadingSpaces, hnil]

/-- A text of one lexeme is one line at most. -/
theorem lined_ofValue {value : String} (h : Markup.Unbroken value) (line : Nat) :
    (Node.text (.ofValue value line)).Lined := by
  have hsplit : value.toList.splitOn '\n' = [value.toList] := lines_of_unbroken h
  unfold Text.ofValue
  by_cases hvalue : value = ""
  · rw [if_pos hvalue]
    exact List.forall_mem_nil _
  · rw [if_neg hvalue, hsplit]
    exact List.forall_mem_singleton.2 (by rwa [String.ofList_toList])

/-- A tag is lined if its parts are. Where a text follows on the next line there is no block. -/
theorem lined_preorder_tag {e : Element} {text : Option Text} {code : Option Code}
    {children : Block} {follows : Bool} (line : Nat) (he : e.Unbroken)
    (htext : ∀ t ∈ text, Inline t)
    (hcode : ∀ n ∈ code.toList.flatMap (Node.preorder ∘ .code), n.Lined)
    (hchildren : ∀ n ∈ Place.nodes children.places, n.Lined)
    (hfollows : follows = true → children.children = []) :
    let text := if follows then some ((text.getD { line }).addLine "") else text
    ∀ n ∈ (Node.tag ⟨e, text, code, children⟩).preorder, n.Lined := by
  intro text'
  have hinlined : ∀ t ∈ text', Tag.Inlined ⟨e, text', code, children⟩ t ∧ (Node.text t).Lined := by
    intro t ht
    cases follows with
    | false =>
      have hinline := htext t ht
      exact ⟨⟨Nat.le_succ_of_le hinline.length_le, fun _ => hinline.solid⟩,
        fun line hline => (hinline.solid line hline).unbroken⟩
    | true =>
      -- The line that the text on the next line starts on is added, and it is empty.
      obtain rfl := Option.some.inj ht
      have hinline : Inline (text.getD { line }) := by
        cases text with
        | none => exact ⟨Nat.zero_le 1, List.forall_mem_nil _⟩
        | some t => exact htext t rfl
      refine ⟨⟨?_, fun hne => absurd (hfollows rfl) hne⟩, ?_⟩
      · show (_ ++ [""]).length ≤ 2
        rw [List.length_append]
        exact Nat.succ_le_succ hinline.length_le
      · exact List.forall_mem_append.2
          ⟨fun line hline => (hinline.solid line hline).unbroken,
            List.forall_mem_singleton.2 (by decide)⟩
  refine List.forall_mem_cons.2 ⟨⟨he, fun t ht => (hinlined t ht).1⟩, ?_⟩
  show ∀ n ∈ Place.nodes (Tag.mk e text' code children).inner, n.Lined
  rw [Tag.nodes_inner]
  refine List.forall_mem_append.2 ⟨List.forall_mem_append.2 ⟨hcode, ?_⟩, hchildren⟩
  intro n hn
  obtain ⟨t, ht, rfl⟩ := List.mem_map.1 hn
  exact (hinlined t (Option.mem_toList.1 ht)).2

/-- What is read from lexemes without line breaks is lined. The block below a tag is read only
where an indent opens it. -/
def Phrase.Lined : (p : Phrase) → Cursor → p.Value → Prop
  | run _, _, taken => ∀ l ∈ taken, l.token.Unbroken
  | text, _, t => (Node.text t).Lined
  | filter _ _, _, f => ∀ n ∈ (Node.filter f).preorder, n.Lined
  | node, _, first => ∀ n ∈ first.toList.flatMap Node.preorder, n.Lined
  | tag e, _, t => e.Unbroken → ∀ n ∈ (Node.tag t).preorder, n.Lined
  | inline, _, x =>
    (∀ n ∈ x.2.toList.flatMap (Node.preorder ∘ .code), n.Lined) ∧ ∀ t ∈ x.1, Inline t
  | code head, _, x =>
    Markup.Unbroken head.expression → ∀ n ∈ (Node.code x).preorder, n.Lined
  | comment head, _, x =>
    (head.body ≠ "" → Solid head.body) → ∀ n ∈ (Node.comment x).preorder, n.Lined
  | below, c, block => (∀ n ∈ Place.nodes (block.elim [] Block.places), n.Lined) ∧
    ∀ b ∈ block, c.next.kind = .indent
  | nodes, _, ns | document, _, ns => ∀ n ∈ ns.flatMap Node.preorder, n.Lined

/-- By induction on what is read: texts come from tokens, which hold no line break. For a tag,
a text and an indent cannot both come next, so a tag with a text on the next line has no block.
-/
theorem Reads.lined {p : Phrase} {c c' : Cursor} {a : p.Value} (hreads : Reads p c a c')
    (h : c.Unbroken) : p.Lined c a := by
  have hsome : ∀ {n : Node} {c : Cursor}, (∀ m ∈ n.preorder, m.Lined) →
      Phrase.node.Lined c (some n) := by
    intro n c hn m hm
    exact hn m (by simpa using hm)
  have htext : ∀ {head : Node} {text : Text}, head.Lined → (Node.text text).Lined →
      ∀ n ∈ [head, .text text], n.Lined :=
    fun hhead hbody => List.forall_mem_cons.2 ⟨hhead, List.forall_mem_singleton.2 hbody⟩
  have happend : ∀ {ns others : List Node}, (∀ n ∈ ns.flatMap Node.preorder, n.Lined) →
      (∀ n ∈ others.flatMap Node.preorder, n.Lined) →
      ∀ n ∈ (ns ++ others).flatMap Node.preorder, n.Lined := by
    intro ns others hns hothers
    rw [List.flatMap_append]
    exact List.forall_mem_append.2 ⟨hns, hothers⟩
  induction hreads with
  | stop => exact List.forall_mem_nil _
  | more _ heos _ ih => exact List.forall_mem_cons.2 ⟨h.next heos, ih h.take⟩
  | @text _ _ taken _ _ ih =>
    -- Every lexeme adds one line or none.
    exact List.foldlRecOn (motive := fun text => (Node.text text).Lined) taken addTo
      (List.forall_mem_nil _) fun text htext l hl => lined_addTo htext (ih h l hl)
  | filterList _ _ ih => exact htext ⟨_, rfl⟩ (ih h.take)
  | filterText _ _ _ ih => exact htext ⟨_, rfl⟩ (ih h)
  | @element c _ name _ htoken hreads ih =>
    have hname := h.next (Reads.element htoken hreads).ready.1
    rw [htoken] at hname
    exact hsome (ih h.take (.ofName hname c.next.line))
  | @shorthand c _ _ hkind hreads ih =>
    -- A shorthand without a name in front is that of a `div`.
    have hl := h.next (Reads.shorthand hkind hreads).ready.1
    exact hsome (ih h.take (unbroken_mark (.ofName (by decide) c.next.line) hl))
  | doctype => exact hsome (List.forall_mem_singleton.2 trivial)
  | filter _ _ ih => exact hsome (ih h.take)
  | pipe _ _ ih => exact hsome (List.forall_mem_singleton.2 (ih h.take))
  | comment htoken hreads ih =>
    have hbody := h.next (Reads.comment htoken hreads).ready.1
    rw [htoken] at hbody
    exact hsome (ih h.take (solid_trimSpaces hbody))
  | @words c value htoken =>
    have hvalue := h.next (Reads.words htoken).ready.1
    rw [htoken] at hvalue
    exact hsome (List.forall_mem_singleton.2 (lined_ofValue hvalue c.next.line))
  | code htoken hreads ih =>
    have hexpression := h.next (Reads.code htoken hreads).ready.1
    rw [htoken] at hexpression
    exact hsome (ih h.take hexpression)
  | indent => exact List.forall_mem_nil _
  | @tag e c c₁ c₂ c₃ c' marks _ text code block hmarks hinline hnewlines hbelow ihmarks ihinline _
      ihbelow =>
    intro he
    have h₁ := hmarks.unbroken h
    obtain ⟨hcode, hinlined⟩ := ihinline h₁
    obtain ⟨hblock, hindent⟩ := ihbelow (hnewlines.unbroken (hinline.unbroken h₁))
    obtain ⟨e', he'⟩ : ∃ e', e' = marks.foldl mark e := ⟨_, rfl⟩
    have hunbroken : e'.Unbroken := by
      rw [he']
      exact List.foldlRecOn marks mark he fun e he l hl => unbroken_mark he (ihmarks h l hl)
    rw [← he']
    have hchildren : ∀ n ∈ Place.nodes (block.getD ⟨e'.line, []⟩).places, n.Lined := by
      cases block <;> exact hblock
    -- A text and an indent cannot both come next.
    have hfollows : decide (c₃.next.kind = .text) = true →
        (block.getD ⟨e'.line, []⟩).children = [] := by
      intro hfollows
      cases block with
      | none => rfl
      | some b =>
        rw [hindent b rfl] at hfollows
        cases hfollows
    have hlined := lined_preorder_tag c₃.line hunbroken hinlined hcode hchildren hfollows
    simpa only [decide_eq_true_eq] using hlined
  | @inlineText c value htoken =>
    have hvalue := h.next (Reads.words htoken).ready.1
    rw [htoken] at hvalue
    refine ⟨List.forall_mem_nil _, fun t ht => ?_⟩
    obtain rfl := Option.some.inj ht
    exact inline_ofValue hvalue _
  | inlineCode htoken hreads ih =>
    have hexpression := h.next (Reads.code htoken hreads).ready.1
    rw [htoken] at hexpression
    refine ⟨fun n hn => ih h.take hexpression n (by simpa using hn), nofun⟩
  | inlineNone => exact ⟨List.forall_mem_nil _, nofun⟩
  | codeText _ hnewlines _ _ ih =>
    intro hhead
    exact htext hhead (ih (hnewlines.unbroken h))
  | @codeBlock _ _ _ _ _ block _ hnewlines _ _ ih =>
    intro hhead
    obtain ⟨hblock, -⟩ := ih (hnewlines.unbroken h)
    cases block <;> exact List.forall_mem_cons.2 ⟨hhead, hblock⟩
  | @commentBlock _ _ _ _ _ block _ hnewlines _ _ ih =>
    intro hhead
    obtain ⟨hblock, -⟩ := ih (hnewlines.unbroken h)
    cases block <;> exact List.forall_mem_cons.2 ⟨hhead, hblock⟩
  | commentText _ hnewlines _ _ _ ih =>
    intro hhead
    exact htext hhead (ih (hnewlines.unbroken h))
  | commentNone =>
    intro hhead
    exact List.forall_mem_singleton.2 hhead
  | @block c _ children hkind _ ih =>
    refine ⟨?_, fun _ _ => hkind⟩
    show ∀ n ∈ Place.nodes (Block.mk c.next.line children).places, n.Lined
    rw [Block.nodes_places]
    exact ih h.take
  | noBlock => exact ⟨List.forall_mem_nil _, nofun⟩
  | nil => exact List.forall_mem_nil _
  | newline _ _ ih => exact ih h.take
  | @cons c _ _ _ _ hfirst _ ihfirst ihothers =>
    exact happend (ihfirst h) (ihothers (hfirst.unbroken (c := c.seen) h))
  | document _ _ ih => exact ih h
  | outdent hnodes _ _ ihnodes ihothers =>
    exact happend (ihnodes h) (ihothers (hnodes.unbroken h).take)

end Reading

/-- No node of a parsed document holds a line break by itself. -/
theorem lined_of_parse {layout : Layout} {source : String} {root : Block}
    (h : parse layout source = .ok root) : ∀ node ∈ Place.nodes root.places, node.Lined := by
  obtain ⟨-, c, hgives⟩ := gives_of_parse h
  have hreads : Reading.Reads .document _ root.children c := .of_gives trivial hgives
  rw [Block.nodes_places]
  exact hreads.lined (Scanner.unbroken_of_mem_tape (Scanner.sound_ofSource layout source))

/-! ### Short names -/

mutual

/-- What is inside a rewritten node is rewritten. -/
theorem Node.nodes_inner_rewrite (ρ : Rewriting) : (node : Node) →
    Place.nodes (node.rewrite ρ).inner = (Place.nodes node.inner).map (Node.rewrite ρ)
  | .group block => block.nodes_places_rewrite ρ
  | .tag tag => tag.nodes_inner_rewrite ρ
  | .text _ => rfl
  | .code code => code.nodes_inner_rewrite ρ
  | .comment comment => comment.nodes_inner_rewrite ρ
  | .doctype _ => rfl
  | .filter filter => filter.nodes_inner_rewrite ρ

theorem Tag.nodes_inner_rewrite (ρ : Rewriting) : (tag : Tag) →
    Place.nodes (tag.rewrite ρ).inner = (Place.nodes tag.inner).map (Node.rewrite ρ)
  | ⟨element, text, none, children⟩ => by
    rw [Tag.rewrite, Tag.nodes_inner, Tag.nodes_inner, children.nodes_places_rewrite ρ]
    cases text <;> simp [Node.rewrite]
  | ⟨element, text, some code, children⟩ => by
    have hcode : Place.nodes (Node.code (code.rewrite ρ)).inner =
        (Place.nodes (Node.code code).inner).map (Node.rewrite ρ) := code.nodes_inner_rewrite ρ
    rw [Tag.rewrite, Tag.nodes_inner, Tag.nodes_inner, children.nodes_places_rewrite ρ]
    cases text <;> simp [Node.rewrite, Node.preorder, hcode]

theorem Code.nodes_inner_rewrite (ρ : Rewriting) : (code : Code) →
    Place.nodes (code.rewrite ρ).inner = (Place.nodes code.inner).map (Node.rewrite ρ)
  | ⟨_, none⟩ => rfl
  | ⟨_, some block⟩ => block.nodes_places_rewrite ρ

theorem Comment.nodes_inner_rewrite (ρ : Rewriting) : (comment : Comment) →
    Place.nodes (comment.rewrite ρ).inner = (Place.nodes comment.inner).map (Node.rewrite ρ)
  | ⟨_, none⟩ => rfl
  | ⟨_, some block⟩ => block.nodes_places_rewrite ρ

theorem Filter.nodes_inner_rewrite (ρ : Rewriting) : (filter : Filter) →
    Place.nodes (filter.rewrite ρ).inner = (Place.nodes filter.inner).map (Node.rewrite ρ)
  | ⟨_, body⟩ => by
    rw [Filter.rewrite, Filter.inner, Filter.inner, Place.nodes_enclosing, Place.nodes_enclosing,
      body.nodes_inner_rewrite ρ, List.map_cons]

theorem Block.nodes_places_rewrite (ρ : Rewriting) : (block : Block) →
    Place.nodes (block.rewrite ρ).places = (Place.nodes block.places).map (Node.rewrite ρ)
  | ⟨_, children⟩ => Node.nodes_placesOf_rewrite ρ children

theorem Node.nodes_placesOf_rewrite (ρ : Rewriting) : (nodes : List Node) →
    Place.nodes (Node.placesOf (Node.rewriteAll ρ nodes)) =
      (Place.nodes (Node.placesOf nodes)).map (Node.rewrite ρ)
  | [] => rfl
  | node :: nodes => by
    rw [Node.rewriteAll, Node.placesOf, Node.placesOf, Place.nodes_append, Place.nodes_append,
      Place.nodes_enclosing, Place.nodes_enclosing, node.nodes_inner_rewrite ρ,
      Node.nodes_placesOf_rewrite ρ nodes, List.map_append, List.map_cons]

end

/-- Expanding short names brings no line break into a node. -/
theorem Node.Lined.rewrite_autotags {node : Node} (h : node.Lined) :
    (node.rewrite .autotags).Lined := by
  cases node with
  | group block => exact h
  | tag tag =>
    obtain ⟨element, text, code, children⟩ := tag
    obtain ⟨helement, htext⟩ := h
    refine ⟨helement.expand, fun t ht => ⟨(htext t ht).length_le, fun hne => ?_⟩⟩
    refine (htext t ht).solid fun hnil => hne ?_
    obtain ⟨line, nodes⟩ := children
    obtain rfl : nodes = [] := hnil
    rfl
  | code code =>
    obtain ⟨statement, block⟩ := code
    exact h
  | comment comment =>
    obtain ⟨remark, block⟩ := comment
    exact h
  | filter filter =>
    obtain ⟨directive, body⟩ := filter
    obtain ⟨t, ht⟩ := h
    obtain rfl : body = .text t := ht
    exact ⟨t, rfl⟩
  | _ => exact h

/-- Documents that are read are still lined with their short names expanded. -/
theorem lined_autotags_of_parse {layout : Layout} {source : String} {root : Block}
    (h : parse layout source = .ok root) :
    ∀ node ∈ Place.nodes (root.rewrite .autotags).places, node.Lined := by
  rw [Block.nodes_places_rewrite]
  intro node hnode
  obtain ⟨node, hmem, rfl⟩ := List.mem_map.1 hnode
  exact (lined_of_parse h node hmem).rewrite_autotags

end Offside
