import Offside.Proofs.Document.Blocks
import Offside.Proofs.Line.Verbatim

/-!
# The text of a verbatim region

The rows of a verbatim region become one text in the document, below the node that the
wrapper stands for (`Wrapper.node`). That node is somewhere in the document, at any depth
(`Block.Contains`).

While a template is read, the wrapper is ahead until its node was read (`Cursor.Awaits`). This
is kept by everything that is read (`Reads.finds`). At the end of the template nothing is ahead,
so the node is in the document.

`region_exact` says how a region is scanned and what it becomes.
-/

set_option autoImplicit false

namespace Offside

open Offside.Character

/-! ### Nodes inside nodes -/

/-- The nodes right inside a node: the code on the line of a tag, the nodes of the block below,
and what a filter is applied to. The text on the line of a tag is no node. -/
def Node.nested : Node → List Node
  | .group block => block.children
  | .tag t => t.code.toList.map .code ++ t.children.children
  | .text _ => []
  | .code c => c.block.elim [] Block.children
  | .comment c => c.block.elim [] Block.children
  | .doctype _ => []
  | .filter f => [f.body]

/-- A node is another one, or it is somewhere inside it. -/
def Node.Contains : Node → Node → Prop :=
  Relation.ReflTransGen fun outer inner => inner ∈ outer.nested

/-- A node is somewhere inside a block. -/
def Block.Contains (b : Block) (n : Node) : Prop :=
  ∃ m ∈ b.children, m.Contains n

theorem Node.contains_of_nested {outer inner n : Node} (h : inner ∈ outer.nested)
    (hn : inner.Contains n) : outer.Contains n :=
  .head h hn

theorem Tag.contains_of_code {t : Tag} {c : Code} {n : Node} (hc : t.code = some c)
    (hn : (Node.code c).Contains n) : (Node.tag t).Contains n := by
  refine Node.contains_of_nested ?_ hn
  show Node.code c ∈ t.code.toList.map .code ++ t.children.children
  rw [hc]
  exact List.mem_cons_self

theorem Tag.contains_of_children {t : Tag} {n : Node} (hn : t.children.Contains n) :
    (Node.tag t).Contains n := by
  obtain ⟨m, hm, hn⟩ := hn
  exact Node.contains_of_nested (List.mem_append_right _ hm) hn

/-- The node that a wrapper stands for, on a line and with texts below it. -/
def Verbatim.Wrapper.node (line : Nat) (lines : List String) : Wrapper → Node
  | .filter name => .filter
    { line, name, attributes := .empty, body := .text { line := line + 1, lines } }
  | .pipe => .text { line, lines }
  | .comment body => .comment
    { line, body := trimSpaces body, buffered := false
      block := some { line, children := [.text { line := line + 1, lines }] } }
  | .code source => .code
    { Grammar.statement line source false with
      block := some { line, children := [.text { line := line + 1, lines }] } }

namespace Reading

/-! ### What is ahead -/

/-- A lexeme and those behind it are ahead, in front of the end of the template. -/
def Cursor.Awaits (c : Cursor) (l : Lexeme) (ls : List Lexeme) : Prop :=
  ∃ front, c.rest = front ++ l :: ls ∧ ∀ m ∈ front, m.kind ≠ .eos

/-- A lexeme that only a node or the line of a tag starts with, and the node that is read
from it. -/
structure Begins (l : Lexeme) (ls : List Lexeme) (n : Node) : Prop where
  opens : l.token.opensVerbatim = true
  reads : ∀ {c c' : Cursor} {first : Option Node}, c.next = l → c.take.rest = ls →
    Reads .node c first c' → first = some n

variable {l : Lexeme} {ls : List Lexeme} {n : Node}

theorem Begins.kind_ne (hl : Begins l ls n) {kind : Token.Kind}
    (hkind : kind ≠ .filter ∧ kind ≠ .pipe ∧ kind ≠ .comment ∧ kind ≠ .code) : l.kind ≠ kind := by
  rintro rfl
  have hopens := hl.opens
  unfold Lexeme.kind at hkind
  cases htoken : l.token <;> simp_all [Token.opensVerbatim, Token.kind]

namespace Cursor.Awaits

variable {c : Cursor}

/-- What is ahead is the next lexeme, or it is ahead behind that. -/
theorem next_or_take (h : c.Awaits l ls) :
    (c.next = l ∧ c.take.rest = ls) ∨ c.next.kind ≠ .eos ∧ c.take.Awaits l ls := by
  obtain ⟨front, hrest, hfront⟩ := h
  cases front with
  | nil =>
    refine .inl ⟨?_, ?_⟩
    · rw [Cursor.next, hrest]
      rfl
    · show c.rest.drop 1 = ls
      rw [hrest]
      rfl
  | cons m front =>
    have hnext : c.next = m := by
      rw [Cursor.next, hrest]
      rfl
    refine .inr ⟨?_, front, ?_, fun m' hm' => hfront m' (.tail _ hm')⟩
    · rw [hnext]
      exact hfront m (.head _)
    · show c.rest.drop 1 = _
      rw [hrest]
      rfl

/-- Lexemes of other kinds can be taken. -/
theorem take (h : c.Awaits l ls) (hkind : l.kind ≠ c.next.kind) : c.take.Awaits l ls := by
  rcases h.next_or_take with ⟨hnext, -⟩ | ⟨-, htake⟩
  · exact absurd (congrArg Lexeme.kind hnext.symm) hkind
  · exact htake

end Cursor.Awaits

/-! ### Reading on -/

/-- A node is somewhere in what a phrase comes to. -/
def Phrase.HoldsNode (n : Node) : (p : Phrase) → p.Value → Prop
  | node, first => ∃ m ∈ first, m.Contains n
  | tag _, t => (Node.tag t).Contains n
  | inline, x => ∃ y ∈ x.2, (Node.code y).Contains n
  | code _, x => (Node.code x).Contains n
  | comment _, x => (Node.comment x).Contains n
  | below, block => ∃ b ∈ block, b.Contains n
  | nodes, ns | document, ns => ∃ m ∈ ns, m.Contains n
  | _, _ => False

/-- A lexeme is ahead of a phrase. It is not the first one of a node, and none of a run. -/
def Phrase.Awaits (l : Lexeme) (ls : List Lexeme) : Phrase → Cursor → Prop
  | run p, c => (∀ kind, p kind = true → l.kind ≠ kind) ∧ c.Awaits l ls
  | node, c => c.take.Awaits l ls
  | _, c => c.Awaits l ls

/-- Behind what is read, the lexeme is still ahead, or its node was read. -/
theorem Reads.finds (hl : Begins l ls n) {p : Phrase} {c c' : Cursor} {a : p.Value}
    (hreads : Reads p c a c') (h : p.Awaits l ls c) : c'.Awaits l ls ∨ p.HoldsNode n a := by
  -- Lexemes of other kinds can be taken.
  have htake : ∀ {c : Cursor} {kind : Token.Kind}, c.Awaits l ls → c.next.kind = kind →
      kind ≠ .filter ∧ kind ≠ .pipe ∧ kind ≠ .comment ∧ kind ≠ .code → c.take.Awaits l ls :=
    fun h hkind hne => h.take (hkind ▸ hl.kind_ne hne)
  have hnewlines : ∀ kind : Token.Kind, decide (kind = .newline) = true → l.kind ≠ kind := by
    intro kind hkind
    rw [of_decide_eq_true hkind]
    exact hl.kind_ne (by decide)
  have hmarks : ∀ kind, isMark kind = true → l.kind ≠ kind := by
    intro kind hkind
    refine hl.kind_ne ?_
    revert hkind
    cases kind <;> decide
  have htextual : ∀ kind, isTextual kind = true → l.kind ≠ kind := by
    intro kind hkind
    refine hl.kind_ne ?_
    revert hkind
    cases kind <;> decide
  -- Runs and texts hold no nodes, so the lexeme is ahead of what follows them.
  have hahead : ∀ {x : Prop}, x ∨ False → x := fun h => h.resolve_right id
  induction hreads with
  | stop => exact .inl h.2
  | more hp _ _ ih => exact ih ⟨h.1, h.2.take (h.1 _ hp)⟩
  | text _ _ ih => exact ih ⟨htextual, h⟩
  | filterList htoken _ ih =>
    have hkind : _ = Token.Kind.attributes := congrArg Token.kind htoken
    exact ih (htake h hkind (by decide))
  | filterText _ _ _ ih => exact ih h
  | element _ _ ih | shorthand _ _ ih | comment _ _ ih | code _ _ ih =>
    exact (ih h).imp_right fun hn => ⟨_, rfl, hn⟩
  | filter _ _ ih | pipe _ _ ih => exact .inl (hahead (ih h))
  | doctype | words | indent => exact .inl h
  | @tag e c c₁ c₂ c₃ c' marks _ _ code block _ _ _ _ ihmarks ihinline ihnewlines ihbelow =>
    rcases ihinline (hahead (ihmarks ⟨hmarks, h⟩)) with hc₂ | ⟨y, hy, hn⟩
    · rcases ihbelow (hahead (ihnewlines ⟨hnewlines, hc₂⟩)) with hc' | ⟨b, hb, hn⟩
      · exact .inl hc'
      · refine .inr (Tag.contains_of_children ?_)
        obtain rfl : block = some b := hb
        exact hn
    · exact .inr (Tag.contains_of_code hy hn)
  | inlineText htoken =>
    have hkind : _ = Token.Kind.text := congrArg Token.kind htoken
    exact .inl (htake h hkind (by decide))
  | inlineCode htoken hreads ih =>
    -- Code on the line of a tag is read as the node that it would be by itself.
    rcases h.next_or_take with ⟨hnext, hrest⟩ | ⟨-, htake⟩
    · obtain rfl := Option.some.inj (hl.reads hnext hrest (.code htoken hreads))
      exact .inr ⟨_, rfl, .refl⟩
    · exact (ih htake).imp_right fun hn => ⟨_, rfl, hn⟩
  | inlineNone | noBlock | nil => exact .inl h
  | codeText _ _ _ ihnewlines ih | commentText _ _ _ _ ihnewlines ih =>
    exact .inl (hahead (ih (hahead (ihnewlines ⟨hnewlines, h⟩))))
  | codeBlock _ _ _ ihnewlines ih | commentBlock _ _ _ ihnewlines ih =>
    refine (ih (hahead (ihnewlines ⟨hnewlines, h⟩))).imp_right ?_
    rintro ⟨b, rfl, m, hm, hn⟩
    exact Node.contains_of_nested hm hn
  | commentNone _ _ _ ihnewlines => exact .inl (hahead (ihnewlines ⟨hnewlines, h⟩))
  | @block c c₁ children hkind hreads ih =>
    rcases ih (htake h hkind (by decide)) with hc₁ | ⟨m, hm, hn⟩
    · -- The block is closed by an outdent, or by nothing at all.
      refine .inl ?_
      show c₁.take.Awaits l ls
      rcases hreads.halts.2 with hends | hends <;> exact htake hc₁ hends (by decide)
    · exact .inr ⟨_, rfl, m, hm, hn⟩
  | newline hkind _ ih => exact ih (htake h hkind (by decide))
  | @cons c c₁ c' first others hfirst _ ihfirst ihothers =>
    have hfound : c₁.Awaits l ls ∨ ∃ m ∈ first, m.Contains n := by
      rcases Cursor.Awaits.next_or_take (c := c.seen) h with ⟨hnext, hrest⟩ | ⟨-, htake⟩
      · exact .inr ⟨n, hl.reads hnext hrest hfirst, .refl⟩
      · exact ihfirst htake
    rcases hfound with hc₁ | ⟨m, hm, hn⟩
    · refine (ihothers hc₁).imp_right ?_
      rintro ⟨m, hm, hn⟩
      exact ⟨m, List.mem_append_right _ hm, hn⟩
    · exact .inr ⟨m, List.mem_append_left _ (Option.mem_toList.2 hm), hn⟩
  | document _ _ ih => exact ih h
  | outdent hnodes hkind _ ihnodes ihothers =>
    rcases ihnodes h with hc₁ | ⟨m, hm, hn⟩
    · have hout := hnodes.halts.2.resolve_right hkind
      refine (ihothers (htake hc₁ hout (by decide))).imp_right ?_
      rintro ⟨m, hm, hn⟩
      exact ⟨m, List.mem_append_right _ hm, hn⟩
    · exact .inr ⟨m, List.mem_append_left _ hm, hn⟩

/-! ### Wrappers -/

open Verbatim
open Source (Row)

/-- A text takes the lexemes of a region, if they end there. -/
theorem Reads.text_eq {c c' : Cursor} {text : Text} {taken tail : List Lexeme}
    (hreads : Reads .text c text c') (hrest : c.rest = taken ++ tail)
    (htaken : ∀ m ∈ taken, isTextual m.kind = true)
    (htail : ∀ m ∈ tail.head?, isTextual m.kind = false) :
    text = taken.foldl addTo { line := c.line } := by
  cases hreads with
  | text _ hreads =>
    have htake : c.rest.takeWhile (isTextual ·.kind) = taken := by
      rw [hrest, List.takeWhile_append_of_pos htaken]
      cases tail with
      | nil => rw [List.takeWhile_nil, List.append_nil]
      | cons m tail =>
        rw [List.takeWhile_cons_of_neg (by simp [htail m rfl]), List.append_nil]
    rw [hreads.run_eq]
    exact congrArg (List.foldl addTo { line := c.line }) htake

variable {layout : Layout} {base line : Nat} {rows : List Row}

theorem isTextual_of_mem :
    ∀ m ∈ Verbatim.lexemes layout base line rows, isTextual m.kind = true := by
  induction rows generalizing line with
  | nil => exact nofun
  | cons row rows ih =>
    intro m hm
    rcases List.mem_append.1 hm with hm | hm
    · rcases List.mem_cons.1 hm with rfl | hm
      · rfl
      · obtain ⟨value, -, rfl⟩ := List.mem_map.1 hm
        rfl
    · exact ih m hm

/-- The lexemes of a region add their texts. -/
theorem foldl_addTo (text : Text) :
    (Verbatim.lexemes layout base line rows).foldl addTo text =
      { text with lines := text.lines ++ texts layout base rows } := by
  induction rows generalizing line text with
  | nil => simp [Verbatim.lexemes, texts]
  | cons row rows ih =>
    rw [Verbatim.lexemes, List.foldl_append, ih]
    cases row with
    | blank width => rfl
    | line width body => simp [lexemesOf, text?, addTo, Text.addLine, texts]

/-- A wrapper begins the node that it stands for, with the texts of its region. -/
theorem begins_wrapper {w : Wrapper} {tail : List Lexeme} (hw : w.Valid) (hrows : rows ≠ [])
    (htail : ∀ m ∈ tail.head?, isTextual m.kind = false) :
    Begins ⟨w.token, line⟩ (Verbatim.lexemes layout base line rows ++ tail)
      (w.node line (texts layout base rows)) := by
  refine ⟨w.opensVerbatim_token hw, fun {c c' first} hnext hrest hreads => ?_⟩
  have hline : c.take.line = line := congrArg Lexeme.line hnext
  -- The first row is on the next line, and it is an indent.
  have hindent : c.take.next = ⟨.indent, line + 1⟩ := by
    obtain ⟨row, rows, rfl⟩ := List.exists_cons_of_ne_nil hrows
    rw [Cursor.next, hrest]
    rfl
  have hkind : c.take.next.kind = .indent := by rw [hindent]; rfl
  have htext : ∀ {text : Text}, Reads .text c.take text c' →
      text = ⟨line, texts layout base rows⟩ := by
    intro text htext
    rw [htext.text_eq hrest isTextual_of_mem htail, foldl_addTo, hline]
    rfl
  have htext' : ∀ {text : Text}, Reads .text c.take.seen text c' →
      text = ⟨line + 1, texts layout base rows⟩ := by
    intro text htext
    rw [htext.text_eq (c := c.take.seen) hrest isTextual_of_mem htail, foldl_addTo]
    show Text.mk c.take.next.line _ = _
    rw [hindent]
    rfl
  -- There are no newlines to skip.
  have hskip : ∀ {newlines : List Lexeme} {c₁ : Cursor},
      Reads (.run (· = .newline)) c.take newlines c₁ → c₁ = c.take.seen := by
    intro newlines c₁ hnewlines
    cases hnewlines with
    | stop => rfl
    | more hp =>
      rw [hkind] at hp
      cases hp
  -- The token of the wrapper leaves one rule for the node.
  have htoken : c.next.token = w.token := congrArg Lexeme.token hnext
  have hshort : c.next.kind.isShorthand = false := by
    rw [Lexeme.kind, htoken]
    cases w <;> rfl
  cases w with
  | filter name =>
    cases hreads with
    | filter hname hreads =>
      obtain rfl := Token.filter.inj (htoken.symm.trans hname)
      cases hreads with
      | filterList hlist =>
        rw [hindent] at hlist
        cases hlist
      | filterText _ _ hreads =>
        rw [htext' hreads, hnext]
        rfl
    | shorthand hkind => simp [hshort] at hkind
    | _ => simp_all [Wrapper.token]
  | pipe =>
    cases hreads with
    | pipe _ hreads =>
      rw [htext hreads]
      rfl
    | shorthand hkind => simp [hshort] at hkind
    | _ => simp_all [Wrapper.token]
  | comment body =>
    cases hreads with
    | comment hbody hreads =>
      obtain ⟨rfl, rfl⟩ := Token.comment.inj (htoken.symm.trans hbody)
      cases hreads with
      | commentText _ hnewlines _ hreads =>
        obtain rfl := hskip hnewlines
        rw [htext' hreads, hnext]
        rfl
      | commentBlock hbuffered => cases hbuffered
      | commentNone _ hnewlines hne =>
        obtain rfl := hskip hnewlines
        exact absurd (by rw [Cursor.next_seen, hkind]) hne
    | shorthand hkind => simp [hshort] at hkind
    | _ => simp_all [Wrapper.token]
  | code source =>
    cases hreads with
    | code hsource hreads =>
      obtain ⟨rfl, rfl⟩ := Token.code.inj (htoken.symm.trans hsource)
      have hverbatim : (Grammar.statement c.next.line source false).verbatim = true :=
        (Wrapper.code source).opensVerbatim_token hw
      cases hreads with
      | codeText _ hnewlines hreads =>
        obtain rfl := hskip hnewlines
        rw [htext' hreads, hnext]
        rfl
      | codeBlock hblock =>
        rw [hverbatim] at hblock
        cases hblock
    | shorthand hkind => simp [hshort] at hkind
    | _ => simp_all [Wrapper.token]

end Reading

open Reading Verbatim
open Scanner (Emits)
open Source (Row)

/-- Where a template can be read, the node of a wrapper that is reached is in the document. -/
theorem contains_of_parse {layout : Layout} {source : String} {ls ms : List Lexeme} {l : Lexeme}
    {n : Node} {s : Scanner} {root : Block} (hemits : Emits (.ofSource layout source) ls s)
    (hl : s.tape.lexemes = l :: ms) (hbegins : Begins l ms n)
    (hparse : parse layout source = .ok root) : root.Contains n := by
  obtain ⟨-, c, hgives⟩ := gives_of_parse hparse
  have hstart : Cursor.Awaits { rest := (Scanner.ofSource layout source).tape.lexemes } l ms := by
    refine ⟨ls, ?_, hemits.kind_ne_eos⟩
    rw [← hl]
    exact hemits.tape.1
  have hreads : Reads .document _ root.children c := .of_gives trivial hgives
  have heos := hreads.halts.2
  refine (hreads.finds hbegins hstart).resolve_left fun hawaits => ?_
  -- What is ahead is in front of the end.
  rcases hawaits.next_or_take with ⟨hnext, -⟩ | ⟨hne, -⟩
  · rw [hnext] at heos
    exact absurd heos (hbegins.kind_ne (by decide))
  · exact absurd heos hne

/-- Verbatim regions are opaque and exact.

Let the scanner reach a line of some width that holds a wrapper and nothing else, outside of
any other region. If deeper or blank lines follow, up to the end of the template or to a line
that is not deeper, all of them are scanned as indents and texts, whatever they hold. The
levels stay as they are, and the line behind the region closes the levels that are wider
than itself, or it offends. If there is any line in the region and the template has a
document, its texts are one text below the node of the wrapper. -/
theorem region_exact (layout : Layout) {source : String} {ls : List Lexeme} {s : Scanner}
    {w : Wrapper} {rows : List Row} {above rest : List Char} {width : Nat}
    (hemits : Emits (.ofSource layout source) ls s) (hdeferred : s.deferred = [])
    (hregion : s.region = none)
    (hsource : Source.normalize layout source = above ++ (List.replicate width ' ' ++ s.rest))
    (habove : ∀ c ∈ above.getLast?, c = '\n')
    (hrest : s.rest = w.chars ++ (Source.below (rows.map Row.chars) ++ rest)) (hw : w.Valid)
    (hrows : ∀ row ∈ rows, Deeper width row) (hends : Ends width rest) :
    let line := above.count '\n' + 1
    (∃ s', Emits s (⟨w.token, line⟩ :: Verbatim.lexemes layout width line rows) s' ∧
        s'.indents = s.indents ∧ s'.line = line + rows.length ∧ s'.rest = rest ∧
        ∀ width' c cs, rest = '\n' :: (List.replicate width' ' ' ++ c :: cs) → c ≠ ' ' → c ≠ '\n' →
          Leaves s' width' (c :: cs)) ∧
      (rows ≠ [] → ∀ root, parse layout source = .ok root →
        root.Contains (w.node line (texts layout width rows))) := by
  intro line
  obtain ⟨hcurrent, hline⟩ := place_of_emits hemits hregion hrest hsource habove
  have hsound := hemits.sound (Scanner.sound_ofSource layout source)
  have htidy : Scanner.Tidy s.rest := by
    refine Scanner.Tidy.of_suffix (Source.isMargin_getLast_normalize layout source) ?_
    rw [hsource]
    exact .trans (List.suffix_append _ _) (List.suffix_append _ _)
  have hlayout : s.layout = layout := hemits.layout_eq
  rw [← hcurrent] at hrows hends
  obtain ⟨s', hemits', hs'⟩ := emits_region hw hrows hends.endsLine hdeferred hregion htidy hrest
  rw [hlayout, hcurrent, hline] at hemits'
  rw [hline] at hs'
  refine ⟨⟨s', hemits', hs'.indents, hs'.line, hs'.rest, ?_⟩, ?_⟩
  · intro width' c cs heq hspace hbreak
    subst heq
    exact hs'.leaves hsound (hends.width_le hspace) hspace hbreak
  · intro hne root hparse
    have hfailure : s'.tape.failure = none := by
      rw [← hemits'.tape.2, ← hemits.tape.2]
      exact (gives_of_parse hparse).1
    refine contains_of_parse hemits hemits'.tape.1 (begins_wrapper hw hne ?_) hparse
    intro m hm
    obtain ⟨ms, hms⟩ := List.head?_eq_some_iff.1 hm
    unfold Lexeme.kind
    rcases hs'.head_lexemes hsound hends hfailure hms with htoken | htoken | htoken <;>
      · rw [htoken]
        rfl

/-- Below the pipe nothing is read as a tag or an attribute list, and the line behind the
region closes a level. -/
theorem region_exact_pipe :
    (∃ s s', Emits (.ofSource {} "ul\n  li\n    |\n\n          | a\n      #b(\n  p")
        [⟨.tag "ul", 1⟩, ⟨.indent, 2⟩, ⟨.tag "li", 2⟩, ⟨.indent, 3⟩] s ∧
      Emits s [⟨.pipe, 3⟩, ⟨.indent, 4⟩, ⟨.indent, 5⟩, ⟨.text "    a", 5⟩, ⟨.indent, 6⟩,
        ⟨.text "#b(", 6⟩] s' ∧
      s'.indents = s.indents ∧ Leaves s' 2 ['p']) ∧
    ∃ root, parse {} "ul\n  li\n    |\n\n          | a\n      #b(\n  p" = .ok root ∧
      root.Contains (.text ⟨3, ["    a", "#b("]⟩) := by
  let source := "ul\n  li\n    |\n\n          | a\n      #b(\n  p"
  let s₁ := (Scanner.ofSource {} source).next.2
  let s₂ := s₁.next.2
  let s₃ := s₂.next.2
  let s := s₃.next.2
  have h₁ : (Scanner.ofSource {} source).next = (.ok ⟨.tag "ul", 1⟩, s₁) := by decide +kernel
  have h₂ : s₁.next = (.ok ⟨.indent, 2⟩, s₂) := by decide +kernel
  have h₃ : s₂.next = (.ok ⟨.tag "li", 2⟩, s₃) := by decide +kernel
  have h₄ : s₃.next = (.ok ⟨.indent, 3⟩, s) := by decide +kernel
  have hemits : Emits (.ofSource {} source)
      [⟨.tag "ul", 1⟩, ⟨.indent, 2⟩, ⟨.tag "li", 2⟩, ⟨.indent, 3⟩] s :=
    .step h₁ (by decide) (.step h₂ (by decide) (.step h₃ (by decide) (.single h₄ (by decide))))
  have hsource : Source.normalize {} source =
      "ul\n  li\n".toList ++ (List.replicate 4 ' ' ++ s.rest) := by
    decide +kernel
  have hrest : s.rest = Wrapper.pipe.chars ++ (Source.below
      ([.blank 0, .line 10 "| a", .line 6 "#b("].map Row.chars) ++ "\n  p".toList) := by
    decide +kernel
  have hends : Ends 4 "\n  p".toList :=
    .inr ⟨2, 'p', [], by decide, by decide, by decide, by decide⟩
  obtain ⟨⟨s', hemits', hindents, -, -, hleaves⟩, hcontains⟩ :=
    region_exact {} hemits (by decide +kernel) (by decide +kernel) hsource (by decide) hrest
      (by decide) (by decide) hends
  refine ⟨⟨s, s', hemits, hemits', hindents, hleaves 2 'p' [] (by decide) (by decide) (by decide)⟩,
    ?_⟩
  match hparse : parse {} source with
  | .ok root => exact ⟨root, rfl, hcontains (by decide) root hparse⟩
  | .error e =>
    have hok : (parse {} source).isOk = true := by decide +kernel
    rw [hparse] at hok
    cases hok

end Offside
