import Offside.Document.Grammar

/-!
# Reading a document from a list of lexemes

The grammar of documents over a list that is fixed in advance. There is no stream
here, nothing is put back and no fuel is spent: a `Cursor` points into the list, each
function takes lexemes off its front, and by the type of its result (`Result`) none
leaves more lexemes than there were.

A shorthand where a node starts is read as the first one behind a tag `div`.

The cursor also notes where blocks were opened and closed (`Cursor.spans`), which no
function reads.
-/

set_option autoImplicit false

/-- Whether a token of this kind stands for a tag `div` where a node starts. -/
def Offside.Token.Kind.isShorthand : Offside.Token.Kind → Bool
  | .idName | .className => true
  | _ => false

namespace Offside.Reading

open Offside.Character (trimSpaces trimLeadingSpaces)

/-! ### Cursors -/

/-- A point of a list of lexemes. -/
structure Cursor where
  /-- The lexemes that have not been taken. -/
  rest : List Lexeme
  /-- What is wrong behind the last lexeme. If nothing is, the template ends there. -/
  failure : Option ScanError := none
  /-- The line of the last lexeme that was looked at. -/
  line : Nat := 1
  /-- The number of lexemes that were taken. -/
  place : Nat := 0
  /-- The blocks that were read: the places of the lexemes that opened and closed them,
  last block first. -/
  spans : List (Nat × Nat) := []
deriving DecidableEq, Repr

namespace Cursor

/-- The next lexeme. Behind the last one the template ends. -/
def next (c : Cursor) : Lexeme :=
  c.rest.headD ⟨.eos, c.line⟩

/-- The cursor once the next lexeme was looked at. -/
def seen (c : Cursor) : Cursor :=
  { c with line := c.next.line }

/-- Whether there is something to look at: a lexeme, or the end of the template. -/
def Goes (c : Cursor) : Prop :=
  c.rest = [] → c.failure = none

/-- The cursor behind some lexemes. -/
def drop (c : Cursor) (taken : List Lexeme) : Cursor :=
  { c with
    rest := c.rest.drop taken.length
    line := (taken.getLast?.map (·.line)).getD c.line
    place := c.place + taken.length }

/-- The cursor behind the next lexeme. -/
def take (c : Cursor) : Cursor :=
  c.drop [c.next]

/-- The cursor behind a block that was opened at the given place and is closed by the
next lexeme. -/
def close (c : Cursor) (start : Nat) : Cursor :=
  { c.take with spans := (start, c.place) :: c.spans }

/-- The number of lexemes that are left. -/
def left (c : Cursor) : Nat :=
  c.rest.length

variable {c : Cursor}

theorem failure_of_not_goes (h : ¬c.Goes) : c.rest = [] ∧ ∃ e, c.failure = some e := by
  simpa [Goes, Option.ne_none_iff_exists'] using h

@[simp] theorem next_seen (c : Cursor) : c.seen.next = c.next := by
  obtain ⟨rest, failure, line, place, spans⟩ := c
  cases rest <;> rfl

@[simp] theorem take_seen (c : Cursor) : c.seen.take = c.take := by
  unfold take
  rw [next_seen]
  rfl

/-- Lexemes can be taken one by one. -/
theorem drop_cons (c : Cursor) (taken : List Lexeme) :
    c.drop (c.next :: taken) = c.take.drop taken := by
  have hline : ((c.next :: taken).getLast?.map (·.line)).getD c.line =
      (taken.getLast?.map (·.line)).getD c.take.line := by
    rw [List.getLast?_cons]
    cases taken.getLast? <;> rfl
  simp only [drop, take, hline, List.length_cons, List.drop_drop, List.length_nil,
    Nat.zero_add, Nat.add_assoc, Nat.add_comm 1]

theorem left_drop_le (c : Cursor) (taken : List Lexeme) : (c.drop taken).left ≤ c.left := by
  simp [left, drop]

theorem left_take_le (c : Cursor) : c.take.left ≤ c.left :=
  c.left_drop_le _

theorem left_close_le (c : Cursor) (start : Nat) : (c.close start).left ≤ c.left :=
  c.left_take_le

/-- Every lexeme but the end of the template is on the list. -/
theorem rest_eq_of_next (h : c.next.kind ≠ .eos) : c.rest = c.next :: c.take.rest := by
  obtain ⟨rest, failure, line, place, spans⟩ := c
  cases rest with
  | nil => exact absurd rfl h
  | cons l rest => rfl

theorem left_take_lt (h : c.next.kind ≠ .eos) : c.take.left < c.left := by
  unfold left
  rw [rest_eq_of_next h]
  exact Nat.lt_succ_self _

end Cursor

/-- What reading at a cursor comes to: a value and the cursor behind it. -/
abbrev Result (α : Type) (c : Cursor) : Type :=
  Except ParseError (α × { c' : Cursor // c'.left ≤ c.left })

namespace Result

variable {α β : Type} {c : Cursor}

/-- A value for which nothing has to be read. -/
def give (a : α) (c : Cursor) : Result α c :=
  .ok (a, ⟨c, Nat.le_refl _⟩)

/-- The same result, seen from a cursor further back. -/
def widen {c' : Cursor} (x : Result α c') (h : c'.left ≤ c.left) : Result α c :=
  x.map fun (a, c'') => (a, ⟨c'', Nat.le_trans c''.2 h⟩)

/-- Goes on reading where a result ends. -/
def andThen (x : Result α c) (f : α → (c' : Cursor) → c'.left ≤ c.left → Result β c') :
    Result β c :=
  match x with
  | .error e => .error e
  | .ok (a, c') => (f a c' c'.2).widen c'.2

/-- Changes the value of a result. -/
def map (f : α → β) (x : Result α c) : Result β c :=
  x.andThen fun a c' _ => give (f a) c'

/-- A result without the bound on its cursor. -/
def outcome (x : Result α c) : Except ParseError (α × Cursor) :=
  match x with
  | .error e => .error e
  | .ok (a, c') => .ok (a, c')

/-- A result that is a value, with the cursor behind it. -/
abbrev Gives (x : Result α c) (a : α) (c' : Cursor) : Prop :=
  x.outcome = .ok (a, c')

@[simp] theorem outcome_error (e : ParseError) : outcome (.error e : Result α c) = .error e :=
  rfl

@[simp] theorem outcome_give (a : α) : (give a c).outcome = .ok (a, c) :=
  rfl

variable {c' : Cursor}

@[simp] theorem outcome_widen (x : Result α c') (h : c'.left ≤ c.left) :
    (x.widen h).outcome = x.outcome := by
  cases x <;> rfl

variable {x : Result α c}

/-- A result that goes on from a value is what it goes on to. -/
theorem outcome_andThen {a : α} (h : x.Gives a c')
    (f : α → (c' : Cursor) → c'.left ≤ c.left → Result β c') :
    ∃ hle, (x.andThen f).outcome = (f a c' hle).outcome := by
  cases x with
  | error e => exact absurd h (by simp)
  | ok out =>
    obtain ⟨a', c'', hle⟩ := out
    obtain ⟨rfl, rfl⟩ : a' = a ∧ c'' = c' := by simpa [Gives, outcome] using h
    exact ⟨hle, outcome_widen _ hle⟩

theorem outcome_andThen_of_error {e : ParseError} (h : x.outcome = .error e)
    (f : α → (c' : Cursor) → c'.left ≤ c.left → Result β c') :
    (x.andThen f).outcome = .error e := by
  cases x with
  | error e' =>
    obtain rfl := Except.error.inj h
    rfl
  | ok out => exact absurd h (by simp [outcome])

/-- Results with one outcome that go on to one outcome have one outcome. -/
theorem outcome_andThen_eq {y : Result α c'}
    {f : α → (c'' : Cursor) → c''.left ≤ c.left → Result β c''}
    {g : α → (c'' : Cursor) → c''.left ≤ c'.left → Result β c''} (h : x.outcome = y.outcome)
    (hfg : ∀ a c'' hle hle', (f a c'' hle).outcome = (g a c'' hle').outcome) :
    (x.andThen f).outcome = (y.andThen g).outcome := by
  -- Both fail alike, or both go on from the same value and cursor.
  match hx : x.outcome with
  | .error e =>
    rw [outcome_andThen_of_error hx, outcome_andThen_of_error (h.symm.trans hx)]
  | .ok (a, c'') =>
    obtain ⟨hle, hf⟩ := outcome_andThen hx f
    obtain ⟨hle', hg⟩ := outcome_andThen (h.symm.trans hx) g
    rw [hf, hg]
    exact hfg a c'' hle hle'

@[simp] theorem outcome_map (f : α → β) (x : Result α c) :
    (x.map f).outcome = x.outcome.map fun (a, c') => (f a, c') := by
  cases x <;> rfl

theorem outcome_map_map {γ : Type} (f : α → β) (g : β → γ) (x : Result α c) :
    ((x.map f).map g).outcome = (x.map (g ∘ f)).outcome := by
  rw [outcome_map, outcome_map, outcome_map]
  cases x.outcome <;> rfl

/-- Going on in ways that come to the same comes to the same. -/
theorem outcome_andThen_congr {γ : Type} {f : α → (c' : Cursor) → c'.left ≤ c.left → Result β c'}
    {g : α → (c' : Cursor) → c'.left ≤ c.left → Result γ c'} {h : β → γ}
    (hfg : ∀ a c' hle, ((f a c' hle).map h).outcome = (g a c' hle).outcome) :
    ((x.andThen f).map h).outcome = (x.andThen g).outcome := by
  match x with
  | .error e => rfl
  | .ok (a, ⟨c', hle⟩) =>
    show (((f a c' hle).widen hle).map h).outcome = ((g a c' hle).widen hle).outcome
    rw [outcome_map, outcome_widen, outcome_widen, ← outcome_map]
    exact hfg a c' hle

theorem Gives.andThen {f : α → (c' : Cursor) → c'.left ≤ c.left → Result β c'}
    {a : α} {b : β} {c'' : Cursor} (hx : x.Gives a c')
    (hf : ∀ hle, (f a c' hle).Gives b c'') : (x.andThen f).Gives b c'' := by
  obtain ⟨hle, h⟩ := outcome_andThen hx f
  exact h.trans (hf hle)

theorem Gives.map {a : α} (hx : x.Gives a c') (f : α → β) : (x.map f).Gives (f a) c' :=
  hx.andThen fun _ => rfl

theorem Gives.widen {c'' : Cursor} {x : Result α c'} {a : α} (hx : x.Gives a c'')
    (h : c'.left ≤ c.left) : (x.widen h).Gives a c'' :=
  (outcome_widen x h).trans hx

section

variable {E : ParseError → Prop} {P : α → Cursor → Prop} {Q : β → Cursor → Prop}

/-- Reading that raises errors of some sort, or gives values of some sort in front of cursors
of some sort. -/
def ComesTo (E : ParseError → Prop) (P : α → Cursor → Prop) (x : Result α c) : Prop :=
  match x.outcome with
  | .error e => E e
  | .ok (a, c') => P a c'

theorem comesTo_give {a : α} (h : P a c) : (give a c).ComesTo E P :=
  h

theorem comesTo_error {e : ParseError} (h : E e) : ComesTo E P (.error e : Result α c) :=
  h

variable {c' : Cursor}

/-- What a result comes to depends on its outcome only. -/
theorem ComesTo.of_outcome {y : Result α c'}
    (h : x.outcome = y.outcome) (hy : y.ComesTo E P) : x.ComesTo E P := by
  unfold ComesTo
  rw [h]
  exact hy

theorem ComesTo.widen {x : Result α c'} (h : x.ComesTo E P)
    (hle : c'.left ≤ c.left) : (x.widen hle).ComesTo E P :=
  .of_outcome (outcome_widen x hle) h

theorem ComesTo.andThen {f : α → (c' : Cursor) → c'.left ≤ c.left → Result β c'}
    (h : x.ComesTo E P) (hf : ∀ a c' hle, P a c' → (f a c' hle).ComesTo E Q) :
    (x.andThen f).ComesTo E Q := by
  unfold ComesTo at h ⊢
  match hx : x.outcome with
  | .error e =>
    rw [outcome_andThen_of_error hx]
    rw [hx] at h
    exact h
  | .ok (a, c') =>
    obtain ⟨hle, houtcome⟩ := outcome_andThen hx f
    rw [houtcome]
    rw [hx] at h
    exact hf a c' hle h

theorem ComesTo.imp {E' : ParseError → Prop} {P' : α → Cursor → Prop}
    (h : x.ComesTo E P) (hE : ∀ e, E e → E' e) (hP : ∀ a c', P a c' → P' a c') :
    x.ComesTo E' P' := by
  unfold ComesTo at h ⊢
  match hx : x.outcome with
  | .error e =>
    rw [hx] at h
    exact hE e h
  | .ok (a, c') =>
    rw [hx] at h
    exact hP a c' h

theorem ComesTo.mono {P' : α → Cursor → Prop} (h : x.ComesTo E P)
    (hP : ∀ a c', P a c' → P' a c') : x.ComesTo E P' :=
  h.imp (fun _ he => he) hP

theorem ComesTo.map {f : α → β} (h : x.ComesTo E P)
    (hf : ∀ a c', P a c' → Q (f a) c') : (x.map f).ComesTo E Q :=
  h.andThen fun a c' _ ha => comesTo_give (hf a c' ha)

theorem ComesTo.of_gives {a : α} (h : x.ComesTo E P) (hx : x.Gives a c') : P a c' := by
  unfold ComesTo at h
  rw [hx] at h
  exact h

theorem ComesTo.of_error {e : ParseError} (h : x.ComesTo E P)
    (hx : x.outcome = .error e) : E e := by
  unfold ComesTo at h
  rw [hx] at h
  exact h

end

end Result

open Result

/-! ### Runs of lexemes -/

/-- Looks at the next lexeme. -/
def look (c : Cursor) : Result Unit c :=
  match c.rest, c.failure with
  | [], some e => .error (.scan e)
  | _, _ => .ok ((), ⟨c.seen, Nat.le_refl _⟩)

theorem outcome_look {c : Cursor} (h : c.Goes) : (look c).outcome = .ok ((), c.seen) := by
  unfold look
  split
  · next e hrest hfailure =>
    rw [h hrest] at hfailure
    exact absurd hfailure (by simp)
  · rfl

theorem outcome_look_of_failure {c : Cursor} {e : ScanError} (hrest : c.rest = [])
    (hfailure : c.failure = some e) : (look c).outcome = .error (.scan e) := by
  unfold look
  rw [hrest, hfailure]
  rfl

/-- Takes lexemes of certain kinds, and looks at the one that follows. -/
def run (p : Token.Kind → Bool) (c : Cursor) : Result (List Lexeme) c :=
  let taken := c.rest.takeWhile (p ·.kind)
  ((look (c.drop taken)).map fun _ => taken).widen (c.left_drop_le taken)

theorem outcome_run (p : Token.Kind → Bool) (c : Cursor) :
    (run p c).outcome = (look (c.drop (c.rest.takeWhile (p ·.kind)))).outcome.map
      fun (_, c') => (c.rest.takeWhile (p ·.kind), c') := by
  rw [run, outcome_widen, outcome_map]

variable {p : Token.Kind → Bool}

/-- A run ends in front of a lexeme of another kind. -/
theorem outcome_run_of_neg {c : Cursor} (h : c.Goes)
    (hp : p c.next.kind = false) : (run p c).outcome = .ok ([], c.seen) := by
  have htaken : c.rest.takeWhile (p ·.kind) = [] := by
    unfold Cursor.next at hp
    cases hrest : c.rest with
    | nil => rfl
    | cons l rest =>
      rw [hrest] at hp
      exact List.takeWhile_cons_of_neg (by simpa using hp)
  rw [outcome_run, htaken, show c.drop [] = c from rfl, outcome_look h]
  rfl

/-- A run goes on behind a lexeme of its kinds. -/
theorem outcome_run_of_pos {c : Cursor} (hp : p c.next.kind = true) (heos : c.next.kind ≠ .eos) :
    (run p c).outcome = (run p c.take).outcome.map fun (taken, c') => (c.next :: taken, c') := by
  have htaken : c.rest.takeWhile (p ·.kind) = c.next :: c.take.rest.takeWhile (p ·.kind) := by
    rw [Cursor.rest_eq_of_next heos]
    exact List.takeWhile_cons_of_pos hp
  rw [outcome_run, outcome_run, htaken, Cursor.drop_cons]
  cases (look (c.take.drop (c.take.rest.takeWhile (p ·.kind)))).outcome <;> rfl

/-- The end of the template is in no run. -/
theorem ne_eos_of_pos (heos : p .eos = false) {kind : Token.Kind}
    (hp : p kind = true) : kind ≠ .eos := by
  rintro rfl
  rw [heos] at hp
  cases hp

/-- A run looks at one lexeme after the other. -/
theorem outcome_run_eq {c : Cursor} (heos : p .eos = false) :
    (run p c).outcome = ((look c).andThen fun _ c' _ =>
      if p c'.next.kind then ((run p c'.take).map (c'.next :: ·)).widen c'.left_take_le
      else give [] c').outcome := by
  -- Where there is nothing to look at, both sides raise the failure.
  by_cases hgoes : c.Goes
  · obtain ⟨hle, hlook⟩ := outcome_andThen (outcome_look hgoes) fun _ c' _ =>
      if p c'.next.kind then ((run p c'.take).map (c'.next :: ·)).widen c'.left_take_le
      else give [] c'
    rw [hlook, Cursor.next_seen]
    cases hp : p c.next.kind with
    | false => exact outcome_run_of_neg hgoes hp
    | true =>
      rw [if_pos rfl, outcome_widen, outcome_map, Cursor.take_seen]
      exact outcome_run_of_pos hp (ne_eos_of_pos heos hp)
  · obtain ⟨hrest, e, hfailure⟩ := Cursor.failure_of_not_goes hgoes
    have hdrop : (c.drop (c.rest.takeWhile (p ·.kind))).rest = [] := by simp [Cursor.drop, hrest]
    rw [outcome_run, outcome_look_of_failure hdrop hfailure,
      outcome_andThen_of_error (outcome_look_of_failure hrest hfailure)]
    rfl

/-- Drops newlines. -/
def skipNewlines (c : Cursor) : Result Unit c :=
  (run (· = .newline) c).map fun _ => ()

/-- The tag with what a shorthand or an attribute list adds to it. -/
def mark (e : Element) (l : Lexeme) : Element :=
  match l.token with
  | .idName name => e.setAttribute "id" (.text name)
  | .className name => e.setAttribute "class" (.text name)
  | .attributes _ as => e.setAttributes as.entries
  | _ => e

/-- Whether a lexeme of this kind adds attributes to a tag. -/
def isMark : Token.Kind → Bool
  | .idName | .className | .attributes => true
  | _ => false

/-- Reads the shorthands and attribute lists behind a tag. -/
def attributes (e : Element) (c : Cursor) : Result Element c :=
  (run isMark c).map fun taken => taken.foldl mark e

/-- The text with the line that a lexeme holds, if it is one of text. -/
def addTo (text : Text) (l : Lexeme) : Text :=
  match l.token with
  | .text value => text.addLine value
  | _ => text

/-- Whether a lexeme of this kind belongs to the text of a verbatim region. -/
def isTextual : Token.Kind → Bool
  | .text | .indent => true
  | _ => false

/-- Reads the text of a verbatim region. -/
def textBlock (c : Cursor) : Result Text c :=
  (look c).andThen fun _ c₁ _ =>
    if isTextual c₁.next.kind then
      (run isTextual c₁).map fun taken => taken.foldl addTo { line := c.line }
    else .error (.unexpectedToken .indent c₁.next.kind c₁.next.line)

/-- Reads a filter, behind its name. -/
def filter (name : String) (line : Nat) (c : Cursor) : Result Filter c :=
  (look c).andThen fun _ c _ =>
    match c.next.token with
    | .attributes _ attributes =>
      ((textBlock c.take).map fun text =>
        { line, name, attributes, body := .text text }).widen c.left_take_le
    | _ => (textBlock c).map fun text => { line, name, attributes := .empty, body := .text text }

/-! ### Nodes and blocks -/

mutual

/-- Reads the node that starts with a lexeme, behind it. -/
def node (l : Lexeme) (c : Cursor) : Result (Option Node) c :=
  match l.token with
  | .tag name => (tag (.ofName name l.line) c).map (some ∘ .tag)
  | .doctype version => give (some (.doctype { line := l.line, version })) c
  | .filter name => (filter name l.line c).map (some ∘ .filter)
  | .pipe => (textBlock c).map (some ∘ .text)
  | .comment body buffered =>
    (comment { line := l.line, body := trimSpaces body, buffered } c).map (some ∘ .comment)
  | .text value => give (some (.text (.ofValue value l.line))) c
  | .code expression buffered =>
    (code (Grammar.statement l.line expression buffered) c).map (some ∘ .code)
  | .idName _ | .className _ => (tag (mark (.ofName "div" l.line) l) c).map (some ∘ .tag)
  | .outdent | .indent | .eos => give none c
  | .attributes _ _ | .newline => .error (.unknownToken l.kind c.line)
termination_by 4 * c.left + 3

/-- Reads a tag, behind its name. Text that follows on the next line at the same
level leaves an empty line in the text of the tag. -/
def tag (e : Element) (c : Cursor) : Result Tag c :=
  (attributes e c).andThen fun e c₁ _ =>
  (inline c₁).andThen fun (text, code) c₂ _ =>
  (skipNewlines c₂).andThen fun _ c₃ _ =>
  (below c₃).map fun block =>
    let text :=
      if c₃.next.kind = .text then some ((text.getD { line := c₃.line }).addLine "") else text
    { e with text, code, children := block.getD { line := e.line, children := [] } }
termination_by 4 * c.left + 2

/-- Reads the text or the code on the line of a tag. -/
def inline (c : Cursor) : Result (Option Text × Option Code) c :=
  match h : c.next.token with
  | .text value =>
    (give (some (Text.ofValue (trimLeadingSpaces value) c.next.line), none) c.take).widen
      c.left_take_le
  | .code expression buffered =>
    have : c.take.left < c.left := Cursor.left_take_lt (by simp [Lexeme.kind, h, Token.kind])
    ((code (Grammar.statement c.next.line expression buffered) c.take).map fun code =>
      (none, some code)).widen c.left_take_le
  | _ => give (none, none) c
termination_by 4 * c.left

/-- Reads what stands below code. -/
def code (head : Statement) (c : Cursor) : Result Code c :=
  (skipNewlines c).andThen fun _ c₁ _ =>
    if head.verbatim then
      (textBlock c₁).map fun text =>
        { head with block := some { line := head.line, children := [.text text] } }
    else (below c₁).map fun block => { head with block }
termination_by 4 * c.left + 2

/-- Reads what stands below a comment. -/
def comment (head : Remark) (c : Cursor) : Result Comment c :=
  (skipNewlines c).andThen fun _ c₁ _ =>
    if head.buffered then (below c₁).map fun block => { head with block }
    else if c₁.next.kind = .indent then
      (textBlock c₁).map fun text =>
        { head with block := some { line := head.line, children := [.text text] } }
    else give { head with block := none } c₁
termination_by 4 * c.left + 2

/-- Reads a block, if an indent opens one. -/
def below (c : Cursor) : Result (Option Block) c :=
  if h : c.next.kind = .indent then (block c h).map some else give none c
termination_by 4 * c.left + 1

/-- Reads a block, from the indent that opens it to the outdent that closes it. -/
def block (c : Cursor) (h : c.next.kind = .indent) : Result Block c :=
  have : c.take.left < c.left := Cursor.left_take_lt (by simp [h])
  ((nodes c.take).andThen fun children c₁ _ =>
    (give { line := c.next.line, children } (c₁.close c.place)).widen
      (c₁.left_close_le _)).widen c.left_take_le
termination_by 4 * c.left

/-- Reads nodes up to an outdent or the end of the template. -/
def nodes (c : Cursor) : Result (List Node) c :=
  (look c).andThen fun _ c₁ _ =>
    if h : c₁.next.kind = .outdent ∨ c₁.next.kind = .eos then give [] c₁
    else
      have : c₁.take.left < c₁.left := Cursor.left_take_lt fun heos => h (.inr heos)
      if c₁.next.kind = .newline then (nodes c₁.take).widen c₁.left_take_le
      else
        ((node c₁.next c₁.take).andThen fun first c₂ _ =>
          (nodes c₂).map (first.toList ++ ·)).widen c₁.left_take_le
termination_by 4 * c.left

end

theorem outcome_inline_of_text {c : Cursor} {value : String} (h : c.next.token = .text value) :
    (inline c).outcome =
      .ok ((some (Text.ofValue (trimLeadingSpaces value) c.next.line), none), c.take) := by
  rw [inline]
  split <;> simp_all

theorem outcome_inline_of_code {c : Cursor} {expression : String} {buffered : Bool}
    (h : c.next.token = .code expression buffered) :
    (inline c).outcome = ((code (Grammar.statement c.next.line expression buffered) c.take).map
      fun code => (none, some code)).outcome := by
  rw [inline]
  split <;> simp_all

theorem outcome_inline {c : Cursor} (htext : c.next.kind ≠ .text) (hcode : c.next.kind ≠ .code) :
    (inline c).outcome = .ok ((none, none), c) := by
  rw [inline]
  split
  · next h => exact absurd (by rw [Lexeme.kind, h]; rfl) htext
  · next h => exact absurd (by rw [Lexeme.kind, h]; rfl) hcode
  · rfl

/-- A shorthand or an attribute list behind a tag belongs to it. -/
theorem outcome_tag_of_isMark (e : Element) {c : Cursor} (h : isMark c.next.kind = true) :
    (tag e c).outcome = (tag (mark e c.next) c.take).outcome := by
  have hattributes : (attributes e c).outcome = (attributes (mark e c.next) c.take).outcome := by
    rw [attributes, attributes, outcome_map, outcome_map,
      outcome_run_of_pos h (ne_eos_of_pos rfl h)]
    cases (run isMark c.take).outcome <;> rfl
  rw [tag, tag]
  exact outcome_andThen_eq hattributes fun _ _ _ _ => rfl

/-- A shorthand where a node starts is the first one behind a tag `div`. -/
theorem node_of_shorthand {l : Lexeme} (h : l.kind.isShorthand = true) (c : Cursor) :
    node l c = (tag (mark (.ofName "div" l.line) l) c).map (some ∘ .tag) := by
  unfold Lexeme.kind at h
  rw [node]
  cases htoken : l.token
  case idName name | className name => rfl
  all_goals
    rw [htoken] at h
    cases h

/-- A shorthand where a node starts is read as if a tag `div` stood in front of it. -/
theorem outcome_node_of_shorthand {c : Cursor} (h : c.next.kind.isShorthand = true) :
    (node c.next c.take).outcome = (node ⟨.tag "div", c.next.line⟩ c).outcome := by
  have hmark : isMark c.next.kind = true := by
    revert h
    cases c.next.kind <;> simp [Token.Kind.isShorthand, isMark]
  rw [node_of_shorthand h, node, outcome_map, outcome_map, outcome_tag_of_isMark _ hmark]

/-- Reads nodes up to the end of the template. -/
def document (c : Cursor) : Result (List Node) c :=
  (look c).andThen fun _ c₁ _ =>
    if h : c₁.next.kind = .eos then give [] c₁
    else
      have : c₁.take.left < c₁.left := Cursor.left_take_lt h
      if c₁.next.kind = .newline then (document c₁.take).widen c₁.left_take_le
      else
        ((node c₁.next c₁.take).andThen fun first c₂ _ =>
          (document c₂).map (first.toList ++ ·)).widen c₁.left_take_le
termination_by c.left

/-- A document is made of nodes up to an outdent or the end. An outdent is dropped. -/
theorem document_eq (c : Cursor) :
    document c = (nodes c).andThen fun ns c₁ _ =>
      if c₁.next.kind = .eos then give ns c₁
      else ((document c₁.take).map (ns ++ ·)).widen c₁.left_take_le := by
  rw [document, nodes]
  rcases look c with e | ⟨-, c₁, hle⟩
  · rfl
  by_cases heos : c₁.next.kind = .eos
  · simp [andThen, widen, give, heos, Except.map]
  have hlt : c₁.take.left < c₁.left := Cursor.left_take_lt heos
  by_cases hout : c₁.next.kind = .outdent
  · have hnode : node c₁.next c₁.take = give none c₁.take := by
      rw [node]
      cases htoken : c₁.next.token <;> simp_all [Lexeme.kind, Token.kind]
    cases hothers : document c₁.take <;>
      simp [andThen, widen, map, give, Except.map, hout, hnode, hothers]
  -- Both readings take what is next here, and the others come to the same.
  by_cases hnewline : c₁.next.kind = .newline
  · have hothers := document_eq c₁.take
    rcases hnodes : nodes c₁.take with e | ⟨ns, c₂, hle₂⟩
    · simp [andThen, widen, Except.map, hnewline, hothers, hnodes]
    by_cases heos₂ : c₂.next.kind = .eos <;> cases hrest : document c₂.take <;>
      simp [andThen, widen, map, give, Except.map, hnewline, hothers, hnodes, heos₂, hrest]
  · rcases hnode : node c₁.next c₁.take with e | ⟨first, c₂, hle₂⟩
    · simp [andThen, widen, Except.map, heos, hout, hnewline, hnode]
    have hothers := document_eq c₂
    rcases hnodes : nodes c₂ with e | ⟨ns, c₃, hle₃⟩
    · simp [andThen, widen, map, Except.map, heos, hout, hnewline, hnode, hothers, hnodes]
    by_cases heos₃ : c₃.next.kind = .eos <;> cases hrest : document c₃.take <;>
      simp [andThen, widen, map, give, Except.map, heos, hout, hnewline, hnode, hothers, hnodes,
        heos₃, hrest]
termination_by c.left

/-- The document that starts at a cursor. -/
def read (c : Cursor) : Except ParseError Block :=
  match (document c).outcome with
  | .ok (children, _) => .ok { line := c.line, children }
  | .error e => .error e

end Offside.Reading
