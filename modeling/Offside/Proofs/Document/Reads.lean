import Offside.Proofs.Document.Reading
import Mathlib.Logic.Relation

/-!
# What is read, by rules

The functions of `Reading` call each other. Whatever is to be said of all of them is said by
induction on `Reads`: a value is read between two cursors, by one rule for each way in which
the functions go on.

* `Reads p c a c'`: the phrase `p` is read at `c`, it comes to `a`, and `c'` is behind it.
* `reads`: a function that gives a value gives it by the rules, and one that fails does so at
  a cursor that it has come to, over what is there (`Cursor.Refuses`).
* `Reads.gives`: what is read by the rules is what the functions give.
* `Reads.travels`: a cursor moves in three ways only (`Cursor.Moves`), so what these keep is
  kept by everything that is read.
-/

set_option autoImplicit false

namespace Offside.Reading

open Offside.Character (trimSpaces trimLeadingSpaces)
open Result

/-! ### Moves -/

namespace Cursor

/-- One move of a cursor. It looks at the next lexeme, it takes one that is not the end of
the template, or it closes a block with the next one, whatever that is. -/
inductive Moves : Cursor → Cursor → Prop
  | seen (c : Cursor) (h : c.Goes) : Moves c c.seen
  | take (c : Cursor) (h : c.next.kind ≠ .eos) : Moves c c.take
  | close (c : Cursor) (start : Nat) : Moves c (c.close start)

/-- A cursor comes to another one, move by move. -/
abbrev Travels : Cursor → Cursor → Prop :=
  Relation.ReflTransGen Moves

/-- What is wrong where a cursor is: the lexemes break off, a text is needed and there is
none, or an attribute list starts a node. -/
inductive Refuses (c : Cursor) : ParseError → Prop
  | scan (e : ScanError) (hrest : c.rest = []) (hfailure : c.failure = some e) :
    Refuses c (.scan e)
  | text (hgoes : c.Goes) (hkind : isTextual c.next.kind = false) :
    Refuses c (.unexpectedToken .indent c.next.kind c.next.line)
  | attributes (hkind : c.next.kind = .attributes) :
    Refuses c (.unknownToken .attributes c.next.line)

/-- The errors at a cursor: something is wrong where it is, or where it comes to. -/
def Stumbles (c : Cursor) (e : ParseError) : Prop :=
  ∃ c', c.Travels c' ∧ c'.Refuses e

theorem Refuses.stumbles {c : Cursor} {e : ParseError} (h : c.Refuses e) : c.Stumbles e :=
  ⟨c, .refl, h⟩

theorem Stumbles.of_travels {c c' : Cursor} {e : ParseError} (h : c'.Stumbles e)
    (htravels : c.Travels c') : c.Stumbles e := by
  obtain ⟨c'', htravels', hrefuses⟩ := h
  exact ⟨c'', htravels.trans htravels', hrefuses⟩

/-- What every move keeps is kept on the whole way. -/
theorem Travels.keeps {Q : Cursor → Prop} (hQ : ∀ c c', Moves c c' → Q c → Q c') {c c' : Cursor}
    (h : c.Travels c') (hc : Q c) : Q c' := by
  induction h with
  | refl => exact hc
  | tail _ hmove ih => exact hQ _ _ hmove ih

/-- There is something to look at where a lexeme is not the end of the template. -/
theorem goes_of_next {c : Cursor} (h : c.next.kind ≠ .eos) : c.Goes := by
  intro hrest
  rw [rest_eq_of_next h] at hrest
  cases hrest

end Cursor

/-! ### Rules -/

/-- What the functions of `Reading` are called for. -/
inductive Phrase where
  /-- Lexemes of certain kinds. -/
  | run (p : Token.Kind → Bool)
  /-- The text of a verbatim region. -/
  | text
  /-- A filter, behind its name. -/
  | filter (name : String) (line : Nat)
  /-- A node, from its first lexeme on. -/
  | node
  /-- A tag, behind its name. -/
  | tag (e : Element)
  /-- The text or the code on the line of a tag. -/
  | inline
  /-- What stands below code. -/
  | code (head : Statement)
  /-- What stands below a comment. -/
  | comment (head : Remark)
  /-- A block, if there is one. -/
  | below
  /-- Nodes up to an outdent or the end of the template. -/
  | nodes
  /-- Nodes up to the end of the template. -/
  | document

namespace Phrase

/-- What a phrase comes to. -/
@[reducible] def Value : Phrase → Type
  | run _ => List Lexeme
  | text => Text
  | filter _ _ => Filter
  | node => Option Node
  | tag _ => Tag
  | inline => Option Text × Option Code
  | code _ => Code
  | comment _ => Comment
  | below => Option Block
  | nodes | document => List Node

/-- The function that reads a phrase. -/
def read : (p : Phrase) → (c : Cursor) → Result p.Value c
  | run p, c => Reading.run p c
  | text, c => textBlock c
  | filter name line, c => Reading.filter name line c
  | node, c => (Reading.node c.next c.take).widen c.left_take_le
  | tag e, c => Reading.tag e c
  | inline, c => Reading.inline c
  | code head, c => Reading.code head c
  | comment head, c => Reading.comment head c
  | below, c => Reading.below c
  | nodes, c => Reading.nodes c
  | document, c => Reading.document c

/-- Where a phrase is called for. The end of the template is in no run, and a node starts
neither with it nor with an outdent or a newline. -/
def Ready : Phrase → Cursor → Prop
  | run p, _ => p .eos = false
  | node, c => c.next.kind ≠ .eos ∧ c.next.kind ≠ .outdent ∧ c.next.kind ≠ .newline
  | _, _ => True

end Phrase

/-- Where a phrase ends: a run in front of a lexeme of another kind, nodes in front of an
outdent or the end of the template. -/
def Phrase.Halts : Phrase → Cursor → Prop
  | run p, c => c.Goes ∧ p c.next.kind = false
  | nodes, c => c.Goes ∧ (c.next.kind = .outdent ∨ c.next.kind = .eos)
  | document, c => c.Goes ∧ c.next.kind = .eos
  | _, _ => True

/-- The phrase that is read at a cursor comes to a value, and the other cursor is behind
it. -/
inductive Reads : (p : Phrase) → Cursor → p.Value → Cursor → Prop
  -- Runs end in front of a lexeme of another kind.
  | stop {p : Token.Kind → Bool} {c : Cursor} (hgoes : c.Goes) (hp : p c.next.kind = false) :
    Reads (.run p) c [] c.seen
  | more {p : Token.Kind → Bool} {c c' : Cursor} {taken : List Lexeme}
      (hp : p c.next.kind = true) (heos : c.next.kind ≠ .eos)
      (h : Reads (.run p) c.take taken c') :
    Reads (.run p) c (c.next :: taken) c'
  | text {c c' : Cursor} {taken : List Lexeme} (hkind : isTextual c.next.kind = true)
      (h : Reads (.run isTextual) c.seen taken c') :
    Reads .text c (taken.foldl addTo { line := c.line }) c'
  -- An attribute list may stand between the name of a filter and its text.
  | filterList {name : String} {line : Nat} {c c' : Cursor} {raw : String} {as : Attributes}
      {text : Text} (htoken : c.next.token = .attributes raw as) (h : Reads .text c.take text c') :
    Reads (.filter name line) c { line, name, attributes := as, body := .text text } c'
  | filterText {name : String} {line : Nat} {c c' : Cursor} {text : Text} (hgoes : c.Goes)
      (hkind : c.next.kind ≠ .attributes) (h : Reads .text c.seen text c') :
    Reads (.filter name line) c { line, name, attributes := .empty, body := .text text } c'
  -- The first lexeme of a node says what it is.
  | element {c c' : Cursor} {name : String} {t : Tag} (htoken : c.next.token = .tag name)
      (h : Reads (.tag (.ofName name c.next.line)) c.take t c') :
    Reads .node c (some (.tag t)) c'
  | shorthand {c c' : Cursor} {t : Tag} (hkind : c.next.kind.isShorthand = true)
      (h : Reads (.tag (mark (.ofName "div" c.next.line) c.next)) c.take t c') :
    Reads .node c (some (.tag t)) c'
  | doctype {c : Cursor} {version : String} (htoken : c.next.token = .doctype version) :
    Reads .node c (some (.doctype { line := c.next.line, version })) c.take
  | filter {c c' : Cursor} {name : String} {f : Filter} (htoken : c.next.token = .filter name)
      (h : Reads (.filter name c.next.line) c.take f c') :
    Reads .node c (some (.filter f)) c'
  | pipe {c c' : Cursor} {text : Text} (htoken : c.next.token = .pipe)
      (h : Reads .text c.take text c') :
    Reads .node c (some (.text text)) c'
  | comment {c c' : Cursor} {body : String} {buffered : Bool} {x : Comment}
      (htoken : c.next.token = .comment body buffered)
      (h : Reads (.comment ⟨c.next.line, trimSpaces body, buffered⟩) c.take x c') :
    Reads .node c (some (.comment x)) c'
  | words {c : Cursor} {value : String} (htoken : c.next.token = .text value) :
    Reads .node c (some (.text (.ofValue value c.next.line))) c.take
  | code {c c' : Cursor} {expression : String} {buffered : Bool} {x : Code}
      (htoken : c.next.token = .code expression buffered)
      (h : Reads (.code (Grammar.statement c.next.line expression buffered)) c.take x c') :
    Reads .node c (some (.code x)) c'
  | indent {c : Cursor} (htoken : c.next.token = .indent) : Reads .node c none c.take
  -- Text on the next line at the level of a tag leaves an empty line in the text of the tag.
  | tag {e : Element} {c c₁ c₂ c₃ c' : Cursor} {marks newlines : List Lexeme} {text : Option Text}
      {code : Option Code} {block : Option Block} (hmarks : Reads (.run isMark) c marks c₁)
      (hinline : Reads .inline c₁ (text, code) c₂)
      (hnewlines : Reads (.run (· = .newline)) c₂ newlines c₃) (hbelow : Reads .below c₃ block c') :
    Reads (.tag e) c
      ⟨marks.foldl mark e,
        if c₃.next.kind = .text then some ((text.getD { line := c₃.line }).addLine "") else text,
        code, block.getD { line := (marks.foldl mark e).line, children := [] }⟩ c'
  | inlineText {c : Cursor} {value : String} (htoken : c.next.token = .text value) :
    Reads .inline c (some (.ofValue (trimLeadingSpaces value) c.next.line), none) c.take
  | inlineCode {c c' : Cursor} {expression : String} {buffered : Bool} {x : Code}
      (htoken : c.next.token = .code expression buffered)
      (h : Reads (.code (Grammar.statement c.next.line expression buffered)) c.take x c') :
    Reads .inline c (none, some x) c'
  | inlineNone {c : Cursor} (htext : c.next.kind ≠ .text) (hcode : c.next.kind ≠ .code) :
    Reads .inline c (none, none) c
  | codeText {head : Statement} {c c₁ c' : Cursor} {newlines : List Lexeme} {text : Text}
      (hverbatim : head.verbatim = true) (hnewlines : Reads (.run (· = .newline)) c newlines c₁)
      (htext : Reads .text c₁ text c') :
    Reads (.code head) c ⟨head, some { line := head.line, children := [.text text] }⟩ c'
  | codeBlock {head : Statement} {c c₁ c' : Cursor} {newlines : List Lexeme}
      {block : Option Block} (hverbatim : head.verbatim = false)
      (hnewlines : Reads (.run (· = .newline)) c newlines c₁) (hbelow : Reads .below c₁ block c') :
    Reads (.code head) c ⟨head, block⟩ c'
  | commentBlock {head : Remark} {c c₁ c' : Cursor} {newlines : List Lexeme}
      {block : Option Block} (hbuffered : head.buffered = true)
      (hnewlines : Reads (.run (· = .newline)) c newlines c₁) (hbelow : Reads .below c₁ block c') :
    Reads (.comment head) c ⟨head, block⟩ c'
  | commentText {head : Remark} {c c₁ c' : Cursor} {newlines : List Lexeme} {text : Text}
      (hbuffered : head.buffered = false) (hnewlines : Reads (.run (· = .newline)) c newlines c₁)
      (hkind : c₁.next.kind = .indent) (htext : Reads .text c₁ text c') :
    Reads (.comment head) c ⟨head, some { line := head.line, children := [.text text] }⟩ c'
  | commentNone {head : Remark} {c c' : Cursor} {newlines : List Lexeme}
      (hbuffered : head.buffered = false) (hnewlines : Reads (.run (· = .newline)) c newlines c')
      (hkind : c'.next.kind ≠ .indent) :
    Reads (.comment head) c ⟨head, none⟩ c'
  | block {c c' : Cursor} {children : List Node} (hkind : c.next.kind = .indent)
      (h : Reads .nodes c.take children c') :
    Reads .below c (some { line := c.next.line, children }) (c'.close c.place)
  | noBlock {c : Cursor} (hkind : c.next.kind ≠ .indent) : Reads .below c none c
  | nil {c : Cursor} (hgoes : c.Goes) (hkind : c.next.kind = .outdent ∨ c.next.kind = .eos) :
    Reads .nodes c [] c.seen
  | newline {c c' : Cursor} {ns : List Node} (hkind : c.next.kind = .newline)
      (h : Reads .nodes c.take ns c') :
    Reads .nodes c ns c'
  | cons {c c₁ c' : Cursor} {first : Option Node} {others : List Node}
      (hfirst : Reads .node c.seen first c₁) (hothers : Reads .nodes c₁ others c') :
    Reads .nodes c (first.toList ++ others) c'
  -- An outdent at the top level is dropped.
  | document {c c' : Cursor} {ns : List Node} (hnodes : Reads .nodes c ns c')
      (hkind : c'.next.kind = .eos) :
    Reads .document c ns c'
  | outdent {c c₁ c' : Cursor} {ns others : List Node} (hnodes : Reads .nodes c ns c₁)
      (hkind : c₁.next.kind ≠ .eos) (hothers : Reads .document c₁.take others c') :
    Reads .document c (ns ++ others) c'

namespace Reads

variable {p : Phrase} {c c' : Cursor} {a : p.Value}

/-- The lexeme a node starts with is not the end of the template, no outdent and no newline:
each rule for nodes names another kind. -/
theorem ready {first : Option Node} (h : Reads .node c first c') : Phrase.node.Ready c := by
  unfold Phrase.Ready
  cases h with
  | element htoken | doctype htoken | filter htoken | comment htoken | words htoken
  | code htoken | pipe htoken | indent htoken => simp [Lexeme.kind, htoken, Token.kind]
  | shorthand hkind =>
    refine ⟨?_, ?_, ?_⟩ <;> intro heq <;> rw [heq] at hkind <;> cases hkind

/-- Taking the lexeme that a node starts with is a move. -/
theorem moves {first : Option Node} (h : Reads .node c first c') : Cursor.Moves c c.take :=
  .take c h.ready.1

/-- The cursor comes to the one behind what is read, move by move. -/
theorem travels (h : Reads p c a c') : c.Travels c' := by
  induction h with
  | stop hgoes _ | nil hgoes _ => exact .single (.seen _ hgoes)
  | more _ heos _ ih => exact .head (.take _ heos) ih
  | text hkind _ ih =>
    refine .head (.seen _ (Cursor.goes_of_next ?_)) ih
    intro heos
    rw [heos] at hkind
    cases hkind
  | filterList htoken _ ih => exact .head (.take _ (by simp [Lexeme.kind, htoken, Token.kind])) ih
  | filterText hgoes _ _ ih => exact .head (.seen _ hgoes) ih
  -- Nodes take their first lexeme.
  | element htoken h ih => exact .head (element htoken h).moves ih
  | shorthand hkind h ih => exact .head (shorthand hkind h).moves ih
  | doctype htoken => exact .single (doctype htoken).moves
  | filter htoken h ih => exact .head (filter htoken h).moves ih
  | pipe htoken h ih => exact .head (pipe htoken h).moves ih
  | comment htoken h ih => exact .head (comment htoken h).moves ih
  | words htoken => exact .single (words htoken).moves
  | code htoken h ih => exact .head (code htoken h).moves ih
  | indent htoken => exact .single (indent htoken).moves
  | tag _ _ _ _ ihmarks ihinline ihnewlines ihbelow =>
    exact ((ihmarks.trans ihinline).trans ihnewlines).trans ihbelow
  | inlineText htoken => exact .single (words htoken).moves
  | inlineCode htoken h ih => exact .head (code htoken h).moves ih
  | inlineNone _ _ | noBlock _ => exact .refl
  | codeText _ _ _ ihnewlines ih | codeBlock _ _ _ ihnewlines ih
  | commentBlock _ _ _ ihnewlines ih | commentText _ _ _ _ ihnewlines ih =>
    exact ihnewlines.trans ih
  | commentNone _ _ _ ihnewlines => exact ihnewlines
  | block hkind _ ih =>
    exact (Relation.ReflTransGen.head (.take _ (by simp [hkind])) ih).tail (.close _ _)
  | newline hkind _ ih => exact .head (.take _ (by simp [hkind])) ih
  | @cons c _ _ _ _ hfirst _ ihfirst ihothers =>
    have hgoes : c.Goes := Cursor.goes_of_next (c.next_seen ▸ hfirst.ready.1)
    exact .head (.seen c hgoes) (ihfirst.trans ihothers)
  | document _ _ ih => exact ih
  | outdent _ hkind _ ihnodes ihothers => exact (ihnodes.tail (.take _ hkind)).trans ihothers

/-- What every move keeps is kept by everything that is read. -/
theorem keeps {Q : Cursor → Prop} (hQ : ∀ c c', Cursor.Moves c c' → Q c → Q c')
    (h : Reads p c a c') (hc : Q c) : Q c' :=
  h.travels.keeps hQ hc

theorem left_le (h : Reads p c a c') : c'.left ≤ c.left := by
  refine h.keeps (Q := fun c' => c'.left ≤ c.left) (fun d d' hmove hle => ?_) (Nat.le_refl _)
  cases hmove with
  | seen => exact hle
  | take => exact Nat.le_trans d.left_take_le hle
  | close start => exact Nat.le_trans (d.left_close_le start) hle

/-- Lexemes are only taken off the front. -/
theorem suffix (h : Reads p c a c') : c'.rest <:+ c.rest := by
  refine h.keeps (Q := fun c' => c'.rest <:+ c.rest) (fun d d' hmove hle => ?_) List.suffix_rfl
  cases hmove with
  | seen => exact hle
  | take | close => exact (List.drop_suffix 1 d.rest).trans hle

/-- A run by itself, lexeme by lexeme. -/
@[elab_as_elim]
theorem run_induction {p : Token.Kind → Bool}
    {motive : ∀ c taken c', Reads (.run p) c taken c' → Prop}
    (stop : ∀ {c : Cursor} (hgoes : c.Goes) (hp : p c.next.kind = false),
      motive c [] c.seen (.stop hgoes hp))
    (more : ∀ {c c' : Cursor} {taken : List Lexeme} (hp : p c.next.kind = true)
      (heos : c.next.kind ≠ .eos) (h : Reads (.run p) c.take taken c'),
      motive c.take taken c' h → motive c (c.next :: taken) c' (.more hp heos h))
    {c : Cursor} {taken : List Lexeme} {c' : Cursor} (h : Reads (.run p) c taken c') :
    motive c taken c' h := by
  cases h with
  | stop hgoes hp => exact stop hgoes hp
  | more hp heos h => exact more hp heos h (run_induction stop more h)

/-- A run is empty in front of a lexeme that does not belong to it. -/
theorem run_nil {p : Token.Kind → Bool} {taken : List Lexeme} (h : Reads (.run p) c taken c')
    (hp : p c.next.kind = false) : taken = [] ∧ c' = c.seen := by
  cases h with
  | stop => exact ⟨rfl, rfl⟩
  | more hp' =>
    rw [hp] at hp'
    cases hp'

/-- A mark may be taken with the tag it belongs to, or as the first one behind it. -/
theorem tag_iff_mark {e : Element} {t : Tag} (hmark : isMark c.next.kind = true) :
    Reads (.tag e) c t c' ↔ Reads (.tag (mark e c.next)) c.take t c' := by
  constructor
  · intro hreads
    cases hreads with
    | tag hmarks hinline hnewlines hbelow =>
      cases hmarks with
      | stop _ hp =>
        rw [hmark] at hp
        cases hp
      | more _ _ hmarks => exact .tag hmarks hinline hnewlines hbelow
  · intro hreads
    have heos : c.next.kind ≠ .eos := by
      intro heos
      rw [heos] at hmark
      cases hmark
    cases hreads with
    | tag hmarks hinline hnewlines hbelow =>
      exact .tag (.more hmark heos hmarks) hinline hnewlines hbelow

/-- A run takes all lexemes of its kinds that come next. -/
theorem run_eq {p : Token.Kind → Bool} {taken : List Lexeme} (h : Reads (.run p) c taken c') :
    taken = c.rest.takeWhile (p ·.kind) := by
  induction h using run_induction with
  | @stop c _ hp =>
    unfold Cursor.next at hp
    cases hrest : c.rest with
    | nil => rfl
    | cons l rest =>
      rw [hrest] at hp
      exact (List.takeWhile_cons_of_neg (by simpa using hp)).symm
  | more hp heos _ ih =>
    rw [Cursor.rest_eq_of_next heos, ih, List.takeWhile_cons, if_pos hp]

/-- A document by itself, outdent by outdent. -/
@[elab_as_elim]
theorem document_induction {motive : ∀ c ns c', Reads .document c ns c' → Prop}
    (document : ∀ {c c' : Cursor} {ns : List Node} (hnodes : Reads .nodes c ns c')
      (hkind : c'.next.kind = .eos), motive c ns c' (.document hnodes hkind))
    (outdent : ∀ {c c₁ c' : Cursor} {ns others : List Node} (hnodes : Reads .nodes c ns c₁)
      (hkind : c₁.next.kind ≠ .eos) (hothers : Reads .document c₁.take others c'),
      motive c₁.take others c' hothers → motive c (ns ++ others) c' (.outdent hnodes hkind hothers))
    {c : Cursor} {ns : List Node} {c' : Cursor} (h : Reads .document c ns c') :
    motive c ns c' h := by
  cases h with
  | document hnodes hkind => exact document hnodes hkind
  | outdent hnodes hkind hothers =>
    have := Nat.lt_of_lt_of_le (Cursor.left_take_lt hkind) hnodes.left_le
    exact outdent hnodes hkind hothers (document_induction document outdent hothers)
termination_by c.left

theorem halts (h : Reads p c a c') : p.Halts c' := by
  induction h with
  | @stop p c hgoes hp => exact ⟨hgoes, by rwa [Cursor.next_seen]⟩
  | @nil c hgoes hkind => exact ⟨hgoes, by rwa [Cursor.next_seen]⟩
  | more _ _ _ ih | newline _ _ ih | cons _ _ _ ih | outdent _ _ _ _ ih => exact ih
  | document _ hkind ih => exact ⟨ih.1, hkind⟩
  | _ => trivial

/-- A node is read by the function that its first lexeme calls for. -/
theorem gives_node {first : Option Node} {x : Result (Option Node) c.take}
    (hnode : node c.next c.take = x) (hx : x.Gives first c') :
    (Phrase.node.read c).Gives first c' := by
  show ((node c.next c.take).widen c.left_take_le).Gives first c'
  rw [hnode]
  exact hx.widen _

/-- What is read by the rules is what the functions give. -/
theorem gives (h : Reads p c a c') : (p.read c).Gives a c' := by
  induction h with
  | stop hgoes hp => exact outcome_run_of_neg hgoes hp
  | @more p c c' taken hp heos h ih =>
    show (run p c).outcome = _
    rw [outcome_run_of_pos hp heos, show (run p c.take).outcome = _ from ih]
    rfl
  | @text c c' taken hkind h ih =>
    have hgoes := Cursor.goes_of_next (ne_eos_of_pos rfl hkind)
    show (textBlock c).Gives _ c'
    refine Gives.andThen (outcome_look hgoes) fun _ => ?_
    rw [Cursor.next_seen, if_pos hkind]
    exact Gives.map ih _
  | @filterList name line c c' raw as text htoken h ih =>
    have hgoes := Cursor.goes_of_next (c := c) (by simp [Lexeme.kind, htoken, Token.kind])
    show (Reading.filter name line c).Gives _ c'
    refine Gives.andThen (outcome_look hgoes) fun _ => ?_
    rw [Cursor.next_seen, htoken]
    exact (Gives.map (Cursor.take_seen c ▸ ih) _).widen _
  | @filterText name line c c' text hgoes hkind h ih =>
    show (Reading.filter name line c).Gives _ c'
    refine Gives.andThen (outcome_look hgoes) fun _ => ?_
    split
    · next htoken =>
      rw [Cursor.next_seen] at htoken
      exact absurd (by rw [Lexeme.kind, htoken]; rfl) hkind
    · exact Gives.map ih _
  | element htoken h ih => exact gives_node (by rw [node, htoken]) (Gives.map ih _)
  | shorthand hkind h ih => exact gives_node (node_of_shorthand hkind _) (Gives.map ih _)
  | doctype htoken => exact gives_node (by rw [node, htoken]) rfl
  | filter htoken h ih => exact gives_node (by rw [node, htoken]) (Gives.map ih _)
  | pipe htoken h ih => exact gives_node (by rw [node, htoken]) (Gives.map ih _)
  | comment htoken h ih => exact gives_node (by rw [node, htoken]) (Gives.map ih _)
  | words htoken => exact gives_node (by rw [node, htoken]) rfl
  | code htoken h ih => exact gives_node (by rw [node, htoken]) (Gives.map ih _)
  | indent htoken => exact gives_node (by rw [node, htoken]) rfl
  | @tag e c c₁ c₂ c₃ c' marks newlines text code block _ _ _ _ ihmarks ihinline ihnewlines
      ihbelow =>
    show (Reading.tag e c).Gives _ c'
    rw [Reading.tag]
    refine Gives.andThen (Gives.map ihmarks _) fun _ => ?_
    refine Gives.andThen ihinline fun _ => ?_
    refine Gives.andThen (Gives.map ihnewlines _) fun _ => ?_
    exact Gives.map ihbelow _
  | inlineText htoken => exact outcome_inline_of_text htoken
  | inlineCode htoken h ih => exact (outcome_inline_of_code htoken).trans (Gives.map ih _)
  | inlineNone htext hcode => exact outcome_inline htext hcode
  | @codeText head c c₁ c' newlines text hverbatim _ _ ihnewlines ih =>
    show (Reading.code head c).Gives _ c'
    rw [Reading.code]
    refine Gives.andThen (Gives.map ihnewlines _) fun _ => ?_
    rw [if_pos hverbatim]
    exact Gives.map ih _
  | @codeBlock head c c₁ c' newlines block hverbatim _ _ ihnewlines ih =>
    show (Reading.code head c).Gives _ c'
    rw [Reading.code]
    refine Gives.andThen (Gives.map ihnewlines _) fun _ => ?_
    rw [hverbatim]
    exact Gives.map ih _
  | @commentBlock head c c₁ c' newlines block hbuffered _ _ ihnewlines ih =>
    show (Reading.comment head c).Gives _ c'
    rw [Reading.comment]
    refine Gives.andThen (Gives.map ihnewlines _) fun _ => ?_
    rw [if_pos hbuffered]
    exact Gives.map ih _
  | @commentText head c c₁ c' newlines text hbuffered _ hkind _ ihnewlines ih =>
    show (Reading.comment head c).Gives _ c'
    rw [Reading.comment]
    refine Gives.andThen (Gives.map ihnewlines _) fun _ => ?_
    rw [hbuffered, if_neg (by decide), if_pos hkind]
    exact Gives.map ih _
  | @commentNone head c c' newlines hbuffered _ hkind ihnewlines =>
    show (Reading.comment head c).Gives _ c'
    rw [Reading.comment]
    refine Gives.andThen (Gives.map ihnewlines _) fun _ => ?_
    rw [hbuffered, if_neg (by decide), if_neg hkind]
    rfl
  | @block c c' children hkind h ih =>
    show (Reading.below c).Gives _ _
    rw [Reading.below, dif_pos hkind, Reading.block]
    exact Gives.map ((Gives.andThen ih fun _ => rfl).widen _) _
  | @noBlock c hkind =>
    show (Reading.below c).Gives _ _
    rw [Reading.below, dif_neg hkind]
    rfl
  | @nil c hgoes hkind =>
    show (Reading.nodes c).Gives _ _
    rw [Reading.nodes]
    refine Gives.andThen (outcome_look hgoes) fun _ => ?_
    rw [dif_pos (by rwa [Cursor.next_seen])]
    rfl
  | @newline c c' ns hkind h ih =>
    have hgoes := Cursor.goes_of_next (c := c) (by simp [hkind])
    show (Reading.nodes c).Gives _ _
    rw [Reading.nodes]
    refine Gives.andThen (outcome_look hgoes) fun _ => ?_
    rw [dif_neg (by simp [hkind]), if_pos (by simp [hkind])]
    exact Gives.widen (Cursor.take_seen c ▸ ih) _
  | @cons c c₁ c' first others hfirst hothers ihfirst ihothers =>
    obtain ⟨heos, houtdent, hnewline⟩ := hfirst.ready
    have hgoes : c.Goes := Cursor.goes_of_next (c.next_seen ▸ heos)
    show (Reading.nodes c).Gives _ _
    rw [Reading.nodes]
    refine Gives.andThen (outcome_look hgoes) fun _ => ?_
    rw [dif_neg (not_or.2 ⟨houtdent, heos⟩), if_neg hnewline]
    refine Gives.widen (Gives.andThen ?_ fun _ => Gives.map ihothers _) _
    exact (outcome_widen _ c.seen.left_take_le).symm.trans ihfirst
  | @document c c' ns hnodes hkind ih =>
    show (Reading.document c).Gives _ _
    rw [document_eq]
    refine Gives.andThen ih fun _ => ?_
    rw [if_pos hkind]
    rfl
  | @outdent c c₁ c' ns others hnodes hkind hothers ihnodes ihothers =>
    show (Reading.document c).Gives _ _
    rw [document_eq]
    refine Gives.andThen ihnodes fun _ => ?_
    rw [if_neg hkind]
    exact (Gives.map ihothers _).widen _

end Reads

/-! ### From functions to rules -/

/-- The result of a function that gives what is read by the rules, or fails at a cursor that
it has come to. -/
abbrev Result.Reads (p : Phrase) {c : Cursor} (x : Result p.Value c) : Prop :=
  x.ComesTo c.Stumbles (Reading.Reads p c)

/-- Going on behind what was read, reading can only fail at a cursor that the first one comes
to. -/
theorem Result.Reads.andThen {p : Phrase} {β : Type} {Q : β → Cursor → Prop} {c : Cursor}
    {x : Result p.Value c} {f : p.Value → (c' : Cursor) → c'.left ≤ c.left → Result β c'}
    (hx : x.Reads p)
    (hf : ∀ a c' hle, Reading.Reads p c a c' → (f a c' hle).ComesTo c'.Stumbles Q) :
    (x.andThen f).ComesTo c.Stumbles Q := by
  refine ComesTo.andThen hx fun a c' hle ha => ?_
  exact (hf a c' hle ha).imp (fun e he => he.of_travels ha.travels) fun b c'' hb => hb

/-- Reading behind the next lexeme, seen from in front of it. -/
theorem Result.ComesTo.of_take {α : Type} {Q : α → Cursor → Prop} {c : Cursor}
    {x : Result α c.take} (hx : x.ComesTo c.take.Stumbles Q) (heos : c.next.kind ≠ .eos) :
    x.ComesTo c.Stumbles Q :=
  hx.imp (fun _ he => he.of_travels (.single (.take c heos))) fun _ _ ha => ha

theorem comesTo_look {β : Type} {Q : β → Cursor → Prop} {c : Cursor}
    {f : Unit → (c' : Cursor) → c'.left ≤ c.left → Result β c'}
    (hf : ∀ hle, c.Goes → (f () c.seen hle).ComesTo c.seen.Stumbles Q) :
    ((look c).andThen f).ComesTo c.Stumbles Q := by
  by_cases hgoes : c.Goes
  · obtain ⟨hle, hlook⟩ := outcome_andThen (outcome_look hgoes) f
    refine ComesTo.of_outcome hlook ((hf hle hgoes).imp (fun e he => ?_) fun b c' hb => hb)
    exact he.of_travels (.single (.seen c hgoes))
  · obtain ⟨hrest, e, hfailure⟩ := Cursor.failure_of_not_goes hgoes
    unfold ComesTo
    rw [outcome_andThen_of_error (outcome_look_of_failure hrest hfailure)]
    exact (Cursor.Refuses.scan e hrest hfailure).stumbles

theorem reads_run {p : Token.Kind → Bool} (heos : p .eos = false) (c : Cursor) :
    (run p c).Reads (.run p) := by
  refine ComesTo.of_outcome (outcome_run_eq heos) (comesTo_look fun _ hgoes => ?_)
  split
  · next hp =>
    have hne := ne_eos_of_pos heos hp
    have : c.seen.take.left < c.left := Cursor.left_take_lt hne
    refine ((reads_run heos c.seen.take).map fun taken c' h => ?_).of_take hne |>.widen _
    rw [Cursor.next_seen] at hp hne ⊢
    rw [Cursor.take_seen] at h
    exact .more hp hne h
  · next hp =>
    rw [Cursor.next_seen] at hp
    exact comesTo_give (.stop hgoes (Bool.eq_false_iff.2 hp))
termination_by c.left

/-- Going on behind a run, of which only a value is kept. -/
theorem comesTo_run {p : Token.Kind → Bool} (heos : p .eos = false) {α β : Type}
    {Q : β → Cursor → Prop} {c : Cursor} {g : List Lexeme → α}
    {f : α → (c' : Cursor) → c'.left ≤ c.left → Result β c'}
    (hf : ∀ taken c' hle, Reads (.run p) c taken c' → (f (g taken) c' hle).ComesTo c'.Stumbles Q) :
    (((run p c).map g).andThen f).ComesTo c.Stumbles Q := by
  have hrun : ((run p c).map g).ComesTo c.Stumbles fun a c' =>
      ∃ taken, a = g taken ∧ Reads (.run p) c taken c' :=
    (reads_run heos c).map fun taken c' h => ⟨taken, rfl, h⟩
  refine hrun.andThen ?_
  rintro - c' hle ⟨taken, rfl, h⟩
  exact (hf taken c' hle h).imp (fun e he => he.of_travels h.travels) fun b c'' hb => hb

theorem reads_text (c : Cursor) : (textBlock c).Reads .text := by
  refine comesTo_look fun _ hgoes => ?_
  rw [Cursor.next_seen]
  split
  · next hkind =>
    refine (reads_run rfl c.seen).map fun taken c' h => ?_
    exact .text hkind h
  · next hkind =>
    have hrefuses : c.seen.Refuses (.unexpectedToken .indent c.next.kind c.next.line) := by
      rw [← Cursor.next_seen]
      exact .text hgoes (by rw [Cursor.next_seen]; exact Bool.eq_false_iff.2 hkind)
    exact comesTo_error hrefuses.stumbles

theorem reads_filter (name : String) (line : Nat) (c : Cursor) :
    (filter name line c).Reads (.filter name line) := by
  refine comesTo_look fun _ hgoes => ?_
  split
  · next htoken =>
    rw [Cursor.next_seen] at htoken
    refine ((reads_text c.seen.take).map fun text c' h => ?_).of_take ?_ |>.widen _
    · rw [Cursor.take_seen] at h
      exact .filterList htoken h
    · simp [Lexeme.kind, htoken, Token.kind]
  · next hother =>
    refine (reads_text c.seen).map fun text c' h => .filterText hgoes (fun hkind => ?_) h
    rw [Cursor.next_seen] at hother
    unfold Lexeme.kind at hkind
    cases htoken : c.next.token <;> simp_all [Token.kind]

mutual

theorem reads_node {c : Cursor} (h : Phrase.node.Ready c) :
    (node c.next c.take).ComesTo c.Stumbles (Reads .node c) := by
  obtain ⟨heos, houtdent, hnewline⟩ := h
  have : c.take.left < c.left := Cursor.left_take_lt heos
  by_cases hshort : c.next.kind.isShorthand = true
  · rw [node_of_shorthand hshort]
    refine ComesTo.of_take ((reads_tag _ c.take).map fun t c' h => ?_) heos
    exact .shorthand hshort h
  unfold Lexeme.kind at heos houtdent hnewline hshort
  rw [node]
  cases htoken : c.next.token with
  | tag name =>
    refine ComesTo.of_take ((reads_tag _ c.take).map fun t c' h => ?_) heos
    exact .element htoken h
  | doctype version => exact comesTo_give (.doctype htoken)
  | filter name =>
    refine ComesTo.of_take ((reads_filter _ _ c.take).map fun f c' h => ?_) heos
    exact .filter htoken h
  | pipe =>
    refine ComesTo.of_take ((reads_text c.take).map fun text c' h => ?_) heos
    exact .pipe htoken h
  | comment body buffered =>
    refine ComesTo.of_take ((reads_comment _ c.take).map fun x c' h => ?_) heos
    exact .comment htoken h
  | text value => exact comesTo_give (.words htoken)
  | code expression buffered =>
    refine ComesTo.of_take ((reads_code _ c.take).map fun x c' h => ?_) heos
    exact .code htoken h
  | indent => exact comesTo_give (.indent htoken)
  | attributes raw as =>
    have hkind : c.next.kind = .attributes := by rw [Lexeme.kind, htoken]; rfl
    rw [hkind]
    exact comesTo_error (Cursor.Refuses.attributes hkind).stumbles
  | idName name | className name => exact absurd (by rw [htoken]; rfl) hshort
  | outdent => exact absurd (by rw [htoken]; rfl) houtdent
  | newline => exact absurd (by rw [htoken]; rfl) hnewline
  | eos => exact absurd (by rw [htoken]; rfl) heos
termination_by 4 * c.left

theorem reads_tag (e : Element) (c : Cursor) : (tag e c).Reads (.tag e) := by
  rw [tag]
  refine comesTo_run rfl fun marks c₁ _ hmarks => ?_
  refine (reads_inline c₁).andThen fun (text, code) c₂ _ hinline => ?_
  refine comesTo_run rfl fun newlines c₃ _ hnewlines => ?_
  refine (reads_below c₃).map fun block c' hbelow => ?_
  exact .tag hmarks hinline hnewlines hbelow
termination_by 4 * c.left + 2

theorem reads_inline (c : Cursor) : (inline c).Reads .inline := by
  rw [inline]
  split
  · next htoken => exact ComesTo.widen (comesTo_give (.inlineText htoken)) _
  · next htoken =>
    have heos : c.next.kind ≠ .eos := by simp [Lexeme.kind, htoken, Token.kind]
    have : c.take.left < c.left := Cursor.left_take_lt heos
    refine ComesTo.widen (ComesTo.of_take ((reads_code _ c.take).map fun x c' h => ?_) heos) _
    exact .inlineCode htoken h
  · next htext hcode =>
    refine comesTo_give (.inlineNone (fun hkind => ?_) fun hkind => ?_) <;>
      unfold Lexeme.kind at hkind <;> cases htoken : c.next.token <;> simp_all [Token.kind]
termination_by 4 * c.left

theorem reads_code (head : Statement) (c : Cursor) : (code head c).Reads (.code head) := by
  rw [code]
  refine comesTo_run rfl fun newlines c₁ _ hnewlines => ?_
  split
  · next hverbatim =>
    refine (reads_text c₁).map fun text c' h => ?_
    exact .codeText hverbatim hnewlines h
  · next hverbatim =>
    refine (reads_below c₁).map fun block c' h => ?_
    exact .codeBlock (Bool.eq_false_iff.2 hverbatim) hnewlines h
termination_by 4 * c.left + 2

theorem reads_comment (head : Remark) (c : Cursor) : (comment head c).Reads (.comment head) := by
  rw [comment]
  refine comesTo_run rfl fun newlines c₁ _ hnewlines => ?_
  split
  · next hbuffered =>
    refine (reads_below c₁).map fun block c' h => ?_
    exact .commentBlock hbuffered hnewlines h
  · next hbuffered =>
    have hbuffered := Bool.eq_false_iff.2 hbuffered
    split
    · next hkind =>
      refine (reads_text c₁).map fun text c' h => ?_
      exact .commentText hbuffered hnewlines hkind h
    · next hkind => exact comesTo_give (.commentNone hbuffered hnewlines hkind)
termination_by 4 * c.left + 2

theorem reads_below (c : Cursor) : (below c).Reads .below := by
  rw [below]
  split
  · next hkind =>
    have heos : c.next.kind ≠ .eos := by simp [hkind]
    have : c.take.left < c.left := Cursor.left_take_lt heos
    rw [block]
    refine ComesTo.map (P := fun b c' => Reads .below c (some b) c') ?_ fun b c' h => h
    refine ComesTo.widen (ComesTo.of_take ?_ heos) _
    refine (reads_nodes c.take).andThen fun children c₁ _ h => ?_
    exact ComesTo.widen (comesTo_give (.block hkind h)) _
  · next hkind => exact comesTo_give (.noBlock hkind)
termination_by 4 * c.left + 1

theorem reads_nodes (c : Cursor) : (nodes c).Reads .nodes := by
  rw [nodes]
  refine comesTo_look fun _ hgoes => ?_
  split
  · next hend => exact comesTo_give (.nil hgoes (by rwa [Cursor.next_seen] at hend))
  · next hend =>
    have heos : c.seen.next.kind ≠ .eos := fun heos => hend (.inr heos)
    have : c.seen.take.left < c.left := Cursor.left_take_lt heos
    split
    · next hkind =>
      refine ComesTo.widen (ComesTo.of_take ?_ heos) _
      refine ComesTo.mono (reads_nodes c.seen.take) fun ns c' h => ?_
      rw [Cursor.next_seen] at hkind
      rw [Cursor.take_seen] at h
      exact .newline hkind h
    · next hkind =>
      have hready : Phrase.node.Ready c.seen := ⟨heos, fun hout => hend (.inl hout), hkind⟩
      refine ComesTo.widen (ComesTo.andThen (reads_node hready) fun first c₂ hle hfirst => ?_) _
      refine (ComesTo.map (reads_nodes c₂) fun others c' h => ?_).imp
        (fun e he => he.of_travels hfirst.travels) fun ns c' h => h
      exact .cons hfirst h
termination_by 4 * c.left + 1

end

theorem reads_document (c : Cursor) : (document c).Reads .document := by
  rw [document_eq]
  refine (reads_nodes c).andThen fun ns c₁ hle hnodes => ?_
  split
  · next hkind => exact comesTo_give (.document hnodes hkind)
  · next hkind =>
    have : c₁.take.left < c.left := Nat.lt_of_lt_of_le (Cursor.left_take_lt hkind) hle
    have hrest := reads_document c₁.take
    refine ComesTo.widen (ComesTo.of_take (hrest.map fun others c' h => ?_) hkind) _
    exact .outdent hnodes hkind h
termination_by c.left

/-- Every function gives what is read by the rules. -/
theorem reads (p : Phrase) {c : Cursor} (h : p.Ready c) : (p.read c).Reads p := by
  cases p with
  | run p => exact reads_run h c
  | text => exact reads_text c
  | filter name line => exact reads_filter name line c
  | node => exact ComesTo.widen (reads_node h) c.left_take_le
  | tag e => exact reads_tag e c
  | inline => exact reads_inline c
  | code head => exact reads_code head c
  | comment head => exact reads_comment head c
  | below => exact reads_below c
  | nodes => exact reads_nodes c
  | document => exact reads_document c

/-- A value that a function gives is read by the rules. -/
theorem Reads.of_gives {p : Phrase} {c c' : Cursor} {a : p.Value} (h : p.Ready c)
    (hgives : (p.read c).Gives a c') : Reads p c a c' :=
  (reads p h).of_gives hgives

/-- The document that is read at a cursor, as a block. -/
theorem read_of_reads {c c' : Cursor} {ns : List Node} (h : Reads .document c ns c') :
    read c = .ok ⟨c.line, ns⟩ := by
  have hdocument : (document c).outcome = .ok (ns, c') := h.gives
  rw [read, hdocument]

theorem exists_reads {c : Cursor} {root : Block} (h : read c = .ok root) :
    ∃ c', root.line = c.line ∧ Reads .document c root.children c' := by
  unfold read at h
  match hdocument : (document c).outcome with
  | .error e =>
    rw [hdocument] at h
    cases h
  | .ok (children, c') =>
    rw [hdocument] at h
    obtain rfl := Except.ok.inj h
    exact ⟨c', rfl, .of_gives trivial hdocument⟩

/-- Where no document is read, the cursor comes to what is wrong. -/
theorem stumbles_of_read {c : Cursor} {e : ParseError} (h : read c = .error e) : c.Stumbles e := by
  unfold read at h
  match hdocument : (document c).outcome with
  | .error e' =>
    rw [hdocument] at h
    obtain rfl := Except.error.inj h
    exact (reads_document c).of_error hdocument
  | .ok out =>
    rw [hdocument] at h
    cases h

end Offside.Reading
