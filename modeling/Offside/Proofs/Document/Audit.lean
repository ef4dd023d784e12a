import Offside.Proofs.Document.Streaming

/-!
# Reading with checks and a ledger

`Grammar` looks at a lexeme, takes it and goes on with what it saw. Nothing there can go
wrong with the lexeme that is taken, and nothing tells how often a lexeme is put back.
`Audit` reads the same documents in a way that leaves both open:

* Each routine takes the lexeme it starts with by itself. If that is not what the routine
  needs, a `Fault` says which routine it was.
* A `Ledger` holds a slip for each lexeme that waits in the stream and for each one that was
  taken. The slip of a lexeme that was put back says where it was taken before. The ledger is
  kept when reading fails.

What adds to a tag (`Reading.mark`) and to a text (`Reading.addTo`) is that of `Reading`, and
code by itself is that of `Grammar`.

The ledger is in order (`Ledger.Kept`) if no lexeme was put back twice (`Ledger.Once`) and
those that were put back stand right behind a tag. A shorthand that was not put back yet
weighs more than one that was, so that putting it back leaves less to read
(`Ledger.weight_returned`).
-/

set_option autoImplicit false

namespace Offside

open Offside.Character (trimSpaces trimLeadingSpaces)

/-! ### Faults -/

/-- What needs a lexeme of a certain kind. -/
inductive Routine where
  | tag
  | doctype
  | filter
  | pipe
  | comment
  | text
  | code
  | block
  /-- The text below a token of a certain kind. -/
  | content (host : Token.Kind)
deriving DecidableEq, Repr

/-- The kind of the lexeme that is needed. -/
def Routine.expects : Routine → Token.Kind
  | tag => .tag
  | doctype => .doctype
  | filter => .filter
  | pipe => .pipe
  | comment => .comment
  | text => .text
  | code => .code
  | block => .indent
  | content _ => .indent

/-- What is wrong with a template, and where it was noticed. -/
inductive Fault where
  | scan (error : ScanError)
  /-- A routine found a lexeme of another kind. -/
  | unexpected (routine : Routine) (found : Token.Kind) (line : Nat)
  /-- No node starts with a token of this kind. -/
  | unknown (found : Token.Kind) (line : Nat)
  | outOfFuel
deriving DecidableEq, Repr

/-- The error that a fault is reported as. -/
def Fault.error : Fault → ParseError
  | scan error => .scan error
  | unexpected routine found line => .unexpectedToken routine.expects found line
  | unknown found line => .unknownToken found line
  | outOfFuel => .outOfFuel

/-! ### Ledgers -/

/-- A lexeme that waits in a stream or was taken from it. -/
structure Slip where
  lexeme : Lexeme
  /-- If the lexeme was put back: its place among those that were taken before. -/
  origin : Option Nat := none
deriving DecidableEq, Repr

/-- The kind of the lexeme. -/
abbrev Slip.kind (x : Slip) : Token.Kind :=
  x.lexeme.kind

/-- The slip of a lexeme that was not put back. -/
def Slip.ofLexeme (lexeme : Lexeme) : Slip :=
  { lexeme }

/-- The lexemes that wait in a stream: what was looked at, then what was put aside. -/
def Stream.waiting (s : Stream) : List Lexeme :=
  s.ahead ++ s.scanner.deferred

/-- A stream, with a slip for each lexeme that waits in it and for each one that was taken
from it. -/
structure Ledger where
  stream : Stream
  queue : List Slip
  taken : List Slip := []
deriving DecidableEq, Repr

namespace Ledger

/-- The ledger of a stream from which nothing was taken. -/
def ofStream (s : Stream) : Ledger where
  stream := s
  queue := s.waiting.map .ofLexeme

/-- All slips, in the order of the lexemes. -/
def slips (L : Ledger) : List Slip :=
  L.taken ++ L.queue

/-- What is put back was taken only once before: no two slips come from the same place, and
at each such place a shorthand was taken that was not put back before. -/
structure Once (L : Ledger) : Prop where
  distinct : (L.slips.filterMap (·.origin)).Nodup
  first : ∀ x ∈ L.slips, ∀ i, x.origin = some i →
    ∃ y, L.taken[i]? = some y ∧ y.lexeme = x.lexeme ∧ y.kind.isShorthand = true ∧ y.origin = none

/-- The ledger with another stream. Lexemes that were scanned meanwhile get new slips. -/
def sync (L : Ledger) (s : Stream) : Ledger :=
  { L with
    stream := s
    queue := L.queue ++ (s.waiting.drop L.queue.length).map .ofLexeme }

end Ledger

/-! ### The audited grammar -/

/-- Reads from a stream and keeps a ledger, unless there is a fault. -/
abbrev Audit : Type → Type :=
  EStateM Fault Ledger

namespace Audit

/-- Looks at the next lexeme. -/
def peek : Audit Lexeme := fun L =>
  match L.stream.predict 1 with
  | (.ok l, s) => .ok l (L.sync s)
  | (.error e, s) => .error (.scan e) (L.sync s)

/-- Takes the next lexeme, with its slip. -/
def take : Audit Slip := fun L =>
  match L.stream.advance with
  | (.ok l, s) =>
    let x := L.queue.headD (.ofLexeme l)
    .ok x ({ L with queue := L.queue.tail, taken := L.taken ++ [x] }.sync s)
  | (.error e, s) => .error (.scan e) (L.sync s)

/-- The line that the stream has reached. -/
def line : Audit Nat :=
  return (← get).stream.line

/-- The place of the lexeme that was taken last. -/
def lastPlace : Audit Nat :=
  return (← get).taken.length - 1

/-- Puts a lexeme into the stream, behind the others that wait there. -/
def defer (x : Slip) : Audit Unit :=
  modify fun L => { L with stream := L.stream.defer x.lexeme, queue := L.queue ++ [x] }

/-- Takes the lexeme that a routine needs, and gives what it holds and its line. -/
def accept {α : Type} (routine : Routine) (view : Token → Option α) : Audit (α × Nat) := do
  let x ← take
  match view x.lexeme.token with
  | some a => return (a, x.lexeme.line)
  | none => throw (.unexpected routine x.kind x.lexeme.line)

/-- Takes a lexeme of the kind that a routine needs, and gives its line. -/
def expect (routine : Routine) : Audit Nat := do
  let (_, line) ← accept routine fun token =>
    if token.kind = routine.expects then some token else none
  return line

/-! ### Runs of lexemes -/

/-- Takes lexemes of certain kinds, each of which changes a value. -/
def run {β : Type} (p : Token.Kind → Bool) (f : β → Lexeme → β) : Nat → β → Audit β
  | 0, _ => throw .outOfFuel
  | fuel + 1, b => do
    if p (← peek).kind then run p f fuel (f b (← take).lexeme) else return b

/-- Drops newlines. -/
def skipNewlines (fuel : Nat) : Audit Unit :=
  run (· = .newline) (fun _ _ => ()) fuel ()

/-- Reads the shorthands and attribute lists behind a tag. -/
def attributes : Nat → Element → Audit Element :=
  run Reading.isMark Reading.mark

/-- Reads the lines of a verbatim region. -/
def textLines : Nat → Text → Audit Text :=
  run Reading.isTextual Reading.addTo

/-- Reads the text of a verbatim region, which a token of a certain kind has opened. -/
def textBlock (host : Token.Kind) (fuel : Nat) : Audit Text := do
  let text : Text := { line := ← line }
  if (← peek).kind = .text then textLines fuel (Reading.addTo text (← take).lexeme)
  else
    let _ ← expect (.content host)
    textLines fuel text

/-! ### Nodes and blocks -/

/-- Reads a text, without the spaces in front of it if they are to be dropped. -/
def text (trim : Bool) : Audit Text := do
  let (value, line) ← accept .text fun
    | .text value => some value
    | _ => none
  return Text.ofValue (if trim then trimLeadingSpaces value else value) line

/-- Reads a document type. -/
def doctype : Audit Doctype := do
  let (version, line) ← accept .doctype fun
    | .doctype version => some version
    | _ => none
  return { line, version }

/-- Reads the attribute list of a filter, if there is one. -/
def filterAttributes : Audit Attributes := do
  if (← peek).kind = .attributes then
    match (← take).lexeme.token with
    | .attributes _ as => return as
    | _ => return .empty
  else return .empty

/-- Reads a filter. -/
def filter (fuel : Nat) : Audit Filter := do
  let (name, line) ← accept .filter fun
    | .filter name => some name
    | _ => none
  let attributes ← filterAttributes
  return { line, name, attributes, body := .text (← textBlock .filter fuel) }

/-- Reads the text behind a pipe. -/
def pipe (fuel : Nat) : Audit Text := do
  let _ ← expect .pipe
  textBlock .pipe fuel

/-- Reads a block, if an indent opens one. -/
def below (block : Audit Block) : Audit (Option Block) := do
  if (← peek).kind = .indent then some <$> block else return none

/-- Reads the text or the code on the line of a tag. -/
def inline (code : Audit Code) : Audit (Option Text × Option Code) := do
  match (← peek).kind with
  | .text => return (some (← text true), none)
  | .code => return (none, some (← code))
  | _ => return (none, none)

/-- Reads what stands behind the text or the code of a tag. -/
def tagEnd (block : Audit Block) (fuel : Nat) (e : Element) (text : Option Text)
    (code : Option Code) : Audit Tag := do
  skipNewlines fuel
  -- A text that follows below is read as a node of its own, and the tag gets an empty line.
  let text ←
    if (← peek).kind = .text then
      let text := text.getD { line := ← line }
      pure (some (text.addLine ""))
    else pure text
  let children ←
    if (← peek).kind = .indent then block else pure { line := e.line, children := [] }
  return { e with text, code, children }

mutual

/-- Reads a node. A shorthand is put back behind a tag `div`, and then the next node is
read. -/
def node : Nat → Audit (Option Node)
  | 0 => throw .outOfFuel
  | fuel + 1 => do
    let l ← peek
    match l.kind with
    | .tag => return some (.tag (← tag fuel))
    | .doctype => return some (.doctype (← doctype))
    | .filter => return some (.filter (← filter fuel))
    | .pipe => return some (.text (← pipe fuel))
    | .comment => return some (.comment (← comment fuel))
    | .text => return some (.text (← text false))
    | .code => return some (.code (← code fuel))
    | .idName | .className =>
      let x ← take
      -- The shorthand goes back with the place where it was taken just now.
      let place ← lastPlace
      defer (.ofLexeme ⟨.tag "div", x.lexeme.line⟩)
      defer { x with origin := some place }
      node fuel
    | .outdent | .indent | .eos =>
      let _ ← take
      return none
    | .attributes | .newline => throw (.unknown l.kind (← line))

/-- Reads a tag. -/
def tag : Nat → Audit Tag
  | 0 => throw .outOfFuel
  | fuel + 1 => do
    let (name, start) ← accept .tag fun
      | .tag name => some name
      | _ => none
    let e ← attributes fuel (.ofName name start)
    let (text, code) ← inline (code fuel)
    tagEnd (block fuel) fuel e text code

/-- Reads code. -/
def code : Nat → Audit Code
  | 0 => throw .outOfFuel
  | fuel + 1 => do
    let ((expression, buffered), line) ← accept .code fun
      | .code expression buffered => some (expression, buffered)
      | _ => none
    let head := Grammar.statement line expression buffered
    skipNewlines fuel
    let block ←
      if head.verbatim then
        let text ← textBlock .code fuel
        pure (some { line, children := [.text text] })
      else below (block fuel)
    return { head with block }

/-- Reads a comment. -/
def comment : Nat → Audit Comment
  | 0 => throw .outOfFuel
  | fuel + 1 => do
    let ((body, buffered), line) ← accept .comment fun
      | .comment body buffered => some (body, buffered)
      | _ => none
    skipNewlines fuel
    let block ← below <|
      if buffered then block fuel
      else do
        let text ← textBlock .comment fuel
        pure { line, children := [.text text] }
    return { line, body := trimSpaces body, buffered, block }

/-- Reads a block, from the indent that opens it to the outdent that closes it. -/
def block : Nat → Audit Block
  | 0 => throw .outOfFuel
  | fuel + 1 => do
    let line ← expect .block
    let children ← nodes fuel
    -- This is an outdent or the end of the template.
    let _ ← take
    return { line, children }

/-- Reads nodes up to an outdent or the end of the template. -/
def nodes : Nat → Audit (List Node)
  | 0 => throw .outOfFuel
  | fuel + 1 => do
    let l ← peek
    if l.kind = .outdent ∨ l.kind = .eos then return []
    else if l.kind = .newline then
      let _ ← take
      nodes fuel
    else
      let first ← node fuel
      let others ← nodes fuel
      return first.toList ++ others

end

/-- Reads nodes up to the end of the template. -/
def document : Nat → Audit (List Node)
  | 0 => throw .outOfFuel
  | fuel + 1 => do
    let l ← peek
    if l.kind = .eos then return []
    else if l.kind = .newline then
      let _ ← take
      document fuel
    else
      let first ← node fuel
      let others ← document fuel
      return first.toList ++ others

/-- The document that a stream of lexemes stands for, or a fault, and the ledger in the end. -/
def ofStream (s : Stream) : Except Fault Block × Ledger :=
  match document (Grammar.fuelFor s) (.ofStream s) with
  | .ok children L => (.ok { line := s.line, children }, L)
  | .error f L => (.error f, L)

section

variable {α β : Type} {m : Audit α} {f : α → Audit β} {L L' : Ledger}

theorem bind_of_ok {a : α} (h : m L = .ok a L') : (m >>= f) L = f a L' := by
  show EStateM.bind m f L = _
  unfold EStateM.bind
  rw [h]

theorem bind_of_error {e : Fault} (h : m L = .error e L') : (m >>= f) L = .error e L' := by
  show EStateM.bind m f L = _
  unfold EStateM.bind
  rw [h]

theorem line_bind (f : Nat → Audit β) : (line >>= f) L = f L.stream.line L :=
  rfl

end

end Audit

/-! ### Slips in order -/

namespace Slip

/-- What is left to do for a lexeme: nothing at the end of the template, and more for a
shorthand that can be put back. -/
def cost (x : Slip) : Nat :=
  if x.kind = .eos then 0 else if x.kind.isShorthand = true ∧ x.origin = none then 3 else 1

theorem cost_le (x : Slip) : x.cost ≤ 3 := by
  unfold cost
  split
  · exact Nat.zero_le _
  · split <;> omega

theorem cost_pos {x : Slip} (h : x.kind ≠ .eos) : 0 < x.cost := by
  unfold cost
  rw [if_neg h]
  split <;> omega

/-- What is left to do for some lexemes. -/
def total : List Slip → Nat
  | [] => 0
  | x :: xs => x.cost + total xs

theorem total_append (xs ys : List Slip) : total (xs ++ ys) = total xs + total ys := by
  induction xs with
  | nil => exact (Nat.zero_add _).symm
  | cons x xs ih =>
    show x.cost + total (xs ++ ys) = x.cost + total xs + total ys
    rw [ih, Nat.add_assoc]

theorem total_le (xs : List Slip) : total xs ≤ 3 * xs.length := by
  induction xs with
  | nil => exact Nat.le_refl _
  | cons x xs ih =>
    have hx := x.cost_le
    rw [total, List.length_cons]
    omega

/-- Slips of which those that were put back are shorthands right behind a tag. It is given
whether a tag stands in front of the first one. -/
def Placed : Bool → List Slip → Prop
  | _, [] => True
  | behindTag, x :: xs =>
    (x.origin = none ∨ x.kind.isShorthand = true ∧ behindTag = true) ∧ Placed (x.kind = .tag) xs

theorem Placed.of_false {xs : List Slip} (h : Placed false xs) (behindTag : Bool) :
    Placed behindTag xs := by
  cases xs with
  | nil => trivial
  | cons x xs => exact ⟨.inl (h.1.resolve_right fun hx => Bool.noConfusion hx.2), h.2⟩

theorem placed_map_ofLexeme (ls : List Lexeme) (behindTag : Bool) :
    Placed behindTag (ls.map ofLexeme) := by
  induction ls generalizing behindTag with
  | nil => trivial
  | cons l ls ih => exact ⟨.inl rfl, ih _⟩

theorem origin_map_ofLexeme (ls : List Lexeme) : (ls.map ofLexeme).filterMap (·.origin) = [] := by
  rw [List.filterMap_map]
  exact List.filterMap_eq_nil_iff.2 fun _ _ => rfl

theorem map_lexeme_map_ofLexeme (ls : List Lexeme) : (ls.map ofLexeme).map (·.lexeme) = ls := by
  rw [List.map_map]
  exact List.map_id ls

/-- Slips stay in order when others come behind them that need no tag in front. -/
theorem Placed.append {xs ys : List Slip} {behindTag : Bool} (hxs : Placed behindTag xs)
    (hys : Placed false ys) : Placed behindTag (xs ++ ys) := by
  induction xs generalizing behindTag with
  | nil => exact hys.of_false behindTag
  | cons x xs ih => exact ⟨hxs.1, ih hxs.2⟩

end Slip

/-! ### Ledgers in order -/

/-- A bound on the lexemes that are left to be read from a template. -/
def Scanner.unread (s : Scanner) : Nat :=
  2 * s.rest.length + s.indents.depth

namespace Ledger

/-- A bound on what is left to do. -/
def weight (L : Ledger) : Nat :=
  Slip.total L.queue + 3 * L.stream.scanner.unread

/-- A ledger with a slip for each lexeme that waits in the stream, in which no lexeme was put
back twice. -/
structure Kept (behindTag : Bool) (L : Ledger) : Prop where
  queue : L.queue.map (·.lexeme) = L.stream.waiting
  placed : Slip.Placed behindTag L.queue
  once : L.Once

/-- The slip of the lexeme that the stream has looked at. -/
def Shows (L : Ledger) (x : Slip) : Prop :=
  ∃ xs ls, L.queue = x :: xs ∧ L.stream.ahead = x.lexeme :: ls

/-- The ledger behind the lexeme that the stream has looked at. -/
def tail (L : Ledger) : Ledger where
  stream := { L.stream with ahead := L.stream.ahead.tail }
  queue := L.queue.tail
  taken := L.taken ++ L.queue.take 1

variable {L : Ledger} {behindTag : Bool} {x : Slip}

variable {y : Slip}

/-- Lexemes come from places in front of those that wait. -/
theorem Once.lt_length (h : L.Once) (hy : y ∈ L.slips) {i : Nat}
    (hi : y.origin = some i) : i < L.taken.length := by
  obtain ⟨z, hz, -⟩ := h.first y hy i hi
  exact (List.getElem?_eq_some_iff.1 hz).1

/-- Taking more lexemes moves none of those that were taken. -/
theorem Once.first_mono (h : L.Once) {taken : List Slip} (htaken : L.taken <+: taken)
    (hy : y ∈ L.slips) {i : Nat} (hi : y.origin = some i) :
    ∃ z, taken[i]? = some z ∧ z.lexeme = y.lexeme ∧ z.kind.isShorthand = true ∧
      z.origin = none := by
  obtain ⟨z, hz, hsame⟩ := h.first y hy i hi
  obtain ⟨rest, rfl⟩ := htaken
  exact ⟨z, by rw [List.getElem?_append_left (h.lt_length hy hi), hz], hsame⟩

/-- Slips of lexemes that were not put back can be added. -/
theorem Once.append {L' : Ledger} (h : L.Once) {new : List Slip}
    (hslips : L'.slips = L.slips ++ new) (htaken : L.taken <+: L'.taken)
    (hnew : new.filterMap (·.origin) = []) : L'.Once := by
  constructor
  · rw [hslips, List.filterMap_append, hnew, List.append_nil]
    exact h.distinct
  · intro x hx i hi
    rw [hslips] at hx
    rcases List.mem_append.1 hx with hx | hx
    · exact h.first_mono htaken hx hi
    · rw [List.filterMap_eq_nil_iff.1 hnew x hx] at hi
      cases hi

theorem Kept.length_queue (h : L.Kept behindTag) : L.queue.length = L.stream.waiting.length := by
  rw [← h.queue, List.length_map]

theorem Kept.of_false (h : L.Kept false) (behindTag : Bool) : L.Kept behindTag :=
  ⟨h.queue, h.placed.of_false behindTag, h.once⟩

theorem kept_ofStream (s : Stream) : (ofStream s).Kept false where
  queue := Slip.map_lexeme_map_ofLexeme s.waiting
  placed := Slip.placed_map_ofLexeme s.waiting false
  once := by
    have hempty : Once ⟨s, [], []⟩ := ⟨List.nodup_nil, fun _ hx => absurd hx List.not_mem_nil⟩
    exact hempty.append rfl List.prefix_rfl (Slip.origin_map_ofLexeme s.waiting)

/-- The fuel that a stream is given is enough for what is left to do. -/
theorem weight_ofStream_le (s : Stream) : 2 * (ofStream s).weight + 2 ≤ Grammar.fuelFor s := by
  have htotal := Slip.total_le (s.waiting.map .ofLexeme)
  have hlength : (s.waiting.map Slip.ofLexeme).length =
      s.ahead.length + s.scanner.deferred.length := by
    rw [List.length_map, Stream.waiting, List.length_append]
  unfold weight ofStream Grammar.fuelFor Stream.size Scanner.size Scanner.unread
  dsimp only
  omega

/-- The stream goes on to scan, and new slips are added for what is scanned. -/
theorem Kept.sync (h : L.Kept behindTag) {s : Stream} (hfront : L.stream.waiting <+: s.waiting) :
    (L.sync s).Kept behindTag where
  queue := by
    obtain ⟨rest, hrest⟩ := hfront
    show (L.queue ++ _).map (·.lexeme) = s.waiting
    rw [List.map_append, h.queue, Slip.map_lexeme_map_ofLexeme, h.length_queue, ← hrest,
      List.drop_left]
  placed := h.placed.append (Slip.placed_map_ofLexeme _ false)
  once := h.once.append (List.append_assoc _ _ _).symm List.prefix_rfl (Slip.origin_map_ofLexeme _)

section

variable (hx : L.Shows x)

include hx

/-- When a lexeme is scanned that is no shorthand, none that was put back comes first. -/
theorem Kept.detach (h : L.Kept behindTag) (hshort : x.kind.isShorthand = false) :
    L.Kept false := by
  obtain ⟨xs, ls, hqueue, -⟩ := hx
  refine ⟨h.queue, ?_, h.once⟩
  have hplaced := h.placed
  rw [hqueue] at hplaced ⊢
  refine ⟨.inl (hplaced.1.resolve_right fun hreturned => ?_), hplaced.2⟩
  rw [hshort] at hreturned
  exact Bool.noConfusion hreturned.1

/-- Where a node starts, a shorthand was not put back before. -/
theorem Kept.origin_eq_none (h : L.Kept false) : x.origin = none := by
  obtain ⟨xs, ls, hqueue, -⟩ := hx
  have hplaced := h.placed
  rw [hqueue] at hplaced
  exact hplaced.1.resolve_right fun hreturned => Bool.noConfusion hreturned.2

theorem Shows.taken_tail : L.tail.taken = L.taken ++ [x] := by
  obtain ⟨xs, ls, hqueue, -⟩ := hx
  rw [Ledger.tail, hqueue]
  rfl

theorem Shows.slips_tail : L.tail.slips = L.slips := by
  rw [slips, hx.taken_tail]
  obtain ⟨xs, ls, hqueue, -⟩ := hx
  rw [Ledger.tail, slips, hqueue, List.append_assoc]
  rfl

theorem Kept.tail (h : L.Kept behindTag) : L.tail.Kept (x.kind = .tag) := by
  have hslips := hx.slips_tail
  have htaken := hx.taken_tail
  obtain ⟨xs, ls, hqueue, hahead⟩ := hx
  have hwaiting := h.queue
  have hplaced := h.placed
  rw [Stream.waiting, hqueue, hahead] at hwaiting
  rw [hqueue] at hplaced
  refine ⟨?_, ?_, ?_⟩
  · show L.queue.tail.map (·.lexeme) = L.stream.ahead.tail ++ _
    rw [hqueue, hahead]
    exact (List.cons.inj hwaiting).2
  · show Slip.Placed _ L.queue.tail
    rw [hqueue]
    exact hplaced.2
  · exact h.once.append (hslips.trans (List.append_nil _).symm) ⟨[x], htaken.symm⟩ rfl

theorem Kept.tail_of_ne (h : L.Kept behindTag) (hne : x.kind ≠ .tag) :
    L.tail.Kept false := by
  have htail := h.tail hx
  rwa [decide_eq_false hne] at htail

theorem weight_tail : L.tail.weight + x.cost = L.weight := by
  obtain ⟨xs, ls, hqueue, -⟩ := hx
  show Slip.total L.queue.tail + 3 * L.stream.scanner.unread + x.cost = Slip.total L.queue + _
  rw [hqueue, List.tail_cons, Slip.total]
  omega

theorem weight_tail_lt (heos : x.kind ≠ .eos) : L.tail.weight < L.weight := by
  have hweight := weight_tail hx
  have hcost := Slip.cost_pos heos
  omega

theorem weight_tail_le : L.tail.weight ≤ L.weight :=
  (weight_tail hx).symm ▸ Nat.le_add_right _ _

end

/-- The ledger that has put a shorthand, which was taken last, back behind a tag `div`. -/
def returned (L : Ledger) (x : Slip) : Ledger :=
  { L with
    stream := L.stream.putBackShorthand x.lexeme
    queue := L.queue ++ [.ofLexeme ⟨.tag "div", x.lexeme.line⟩] ++
      [{ x with origin := some (L.taken.length - 1) }] }

/-- A shorthand that was not put back before can be put back. -/
theorem Once.returned (h : L.Once) (hx : L.Shows x) (horigin : x.origin = none)
    (hshort : x.kind.isShorthand = true) : (L.tail.returned x).Once := by
  have hslips : (L.tail.returned x).slips = L.slips ++ [.ofLexeme ⟨.tag "div", x.lexeme.line⟩] ++
      [{ x with origin := some L.taken.length }] := by
    have hlength : L.tail.taken.length - 1 = L.taken.length := by
      rw [hx.taken_tail, List.length_append]
      rfl
    rw [← hx.slips_tail, Ledger.returned, slips, slips, hlength]
    simp only [List.append_assoc]
  have htaken : (L.tail.returned x).taken = L.taken ++ [x] := hx.taken_tail
  constructor
  · have horigins : (L.tail.returned x).slips.filterMap (·.origin) =
        L.slips.filterMap (·.origin) ++ [L.taken.length] := by
      rw [hslips, List.append_assoc, List.filterMap_append]
      rfl
    rw [horigins]
    -- All other places are in front of the one that is taken now.
    refine List.nodup_append.2 ⟨h.distinct, List.pairwise_singleton _ _, fun i hi j hj => ?_⟩
    obtain ⟨y, hy, hyi⟩ := List.mem_filterMap.1 hi
    rw [List.mem_singleton.1 hj]
    exact Nat.ne_of_lt (h.lt_length hy hyi)
  · intro y hy i hi
    rw [hslips] at hy
    rcases List.mem_append.1 hy with hy | hy
    · rcases List.mem_append.1 hy with hy | hy
      · exact h.first_mono ⟨[x], htaken.symm⟩ hy hi
      · rw [List.mem_singleton.1 hy] at hi
        cases hi
    · rw [List.mem_singleton.1 hy] at hi ⊢
      obtain rfl := Option.some.inj hi
      exact ⟨x, by rw [htaken, List.getElem?_concat_length], rfl, hshort, horigin⟩

theorem Kept.returned (h : L.Kept false) (hx : L.Shows x) (hshort : x.kind.isShorthand = true) :
    (L.tail.returned x).Kept false := by
  have htail := h.tail_of_ne hx fun htag => by rw [htag] at hshort; cases hshort
  refine ⟨?_, ?_, h.once.returned hx (h.origin_eq_none hx) hshort⟩
  · show (L.tail.queue ++ _ ++ _).map (·.lexeme) =
      L.tail.stream.ahead ++ (L.tail.stream.scanner.deferred ++ _ ++ _)
    rw [List.map_append, List.map_append, htail.queue, Stream.waiting]
    simp only [List.append_assoc]
    rfl
  · show Slip.Placed _ (L.tail.queue ++ _ ++ _)
    rw [List.append_assoc]
    exact htail.placed.append ⟨.inl rfl, .inr ⟨hshort, rfl⟩, trivial⟩

/-- Putting back a shorthand leaves less to do. -/
theorem weight_returned (hx : L.Shows x) (horigin : x.origin = none)
    (hshort : x.kind.isShorthand = true) : (L.tail.returned x).weight + 1 = L.weight := by
  have heos : x.kind ≠ .eos := by
    intro heos
    rw [heos] at hshort
    cases hshort
  have hcost : x.cost = 3 := by
    unfold Slip.cost
    rw [if_neg heos, if_pos ⟨hshort, horigin⟩]
  have hnew : ∀ place, ({ x with origin := some place } : Slip).cost = 1 := by
    intro place
    unfold Slip.cost
    rw [if_neg heos, if_neg]
    rintro ⟨-, h⟩
    cases h
  have hdiv : (Slip.ofLexeme ⟨.tag "div", x.lexeme.line⟩).cost = 1 := rfl
  have hweight := weight_tail hx
  -- The shorthand weighed 3. What is put back, the tag and the shorthand, weighs 1 each.
  show Slip.total (L.tail.queue ++ _ ++ _) + 3 * L.tail.stream.scanner.unread + 1 = L.weight
  rw [hcost, weight] at hweight
  simp only [Slip.total_append, Slip.total, hnew, hdiv]
  omega

/-! ### Looking and taking -/

theorem Kept.exists_shows (h : L.Kept behindTag) {l : Lexeme} {ls : List Lexeme}
    (hahead : L.stream.ahead = l :: ls) : ∃ x, L.Shows x ∧ x.lexeme = l := by
  have hqueue := h.queue
  rw [Stream.waiting, hahead] at hqueue
  obtain ⟨x, xs, hxs, rfl, -⟩ := List.map_eq_cons_iff.1 hqueue
  exact ⟨x, ⟨xs, ls, hxs, hahead⟩, rfl⟩

theorem Kept.sync_self (h : L.Kept behindTag) : L.sync L.stream = L := by
  unfold Ledger.sync
  rw [h.length_queue, List.drop_length, List.map_nil, List.append_nil]

end Ledger

/-- A lexeme that was put aside is handed out, and nothing is read. -/
theorem Scanner.next_of_deferred {s s' : Scanner} {l l' : Lexeme} {ls : List Lexeme}
    (hdeferred : s.deferred = l' :: ls) (hnext : s.next = (.ok l, s')) :
    l = l' ∧ s'.deferred = ls ∧ s'.unread = s.unread := by
  unfold next at hnext
  rw [hdeferred] at hnext
  cases hnext
  exact ⟨rfl, rfl, rfl⟩

/-- What is scanned weighs no more than what it is scanned from. -/
theorem Scanner.cost_add_le {s s' : Scanner} {l : Lexeme} (hdeferred : s.deferred = [])
    (hnext : s.next = (.ok l, s')) :
    (Slip.ofLexeme l).cost + 3 * (s'.deferred.length + s'.unread) ≤ 3 * s.unread := by
  have hsize : ∀ s : Scanner, s.size = s.deferred.length + s.unread := fun s => Nat.add_comm _ _
  have hunread : s.size = s.unread := by rw [hsize, hdeferred, List.length_nil, Nat.zero_add]
  rw [← hsize, ← hunread]
  by_cases hl : l.kind = .eos
  -- The end of the template can be scanned again and again, but its slip weighs nothing.
  · have hcost : (Slip.ofLexeme l).cost = 0 := if_pos hl
    have hle : s'.size = s.size := by
      cases Step.of_next hnext with
      | deferred l ls hls =>
        rw [hdeferred] at hls
        cases hls
      | eos hdeferred hrest hopened => rfl
      | token c cs token rest hdeferred hrest hc hread =>
        exact absurd hl (kind_ne_of_readInline hread rfl)
      | close | blank | verbatimBlank | verbatimLine | same | deeper | shallower => cases hl
    omega
  · have hcost := (Slip.ofLexeme l).cost_le
    have hlt := size_lt_of_next hnext hl
    omega

namespace Ledger

variable {L : Ledger} {behindTag : Bool} {x : Slip}

variable {scanner : Scanner} {routine : Routine}

/-- When nothing was looked at, the next lexeme is handed out or scanned. -/
theorem Kept.scan (h : L.Kept behindTag) (hahead : L.stream.ahead = []) {l : Lexeme}
    (hnext : L.stream.scanner.next = (.ok l, scanner)) :
    (L.sync ⟨scanner, [l]⟩).Kept behindTag ∧ (L.sync ⟨scanner, [l]⟩).weight ≤ L.weight := by
  have hwaiting : L.stream.waiting = L.stream.scanner.deferred := by
    rw [Stream.waiting, hahead]
    rfl
  have hlength := h.length_queue
  cases hdeferred : L.stream.scanner.deferred with
  | nil =>
    -- Nothing waits, so the lexeme is scanned, and so is what is put aside with it.
    rw [hwaiting, hdeferred] at hlength
    obtain hqueue := List.length_eq_zero_iff.1 hlength
    refine ⟨h.sync (by rw [hwaiting, hdeferred]; exact List.nil_prefix), ?_⟩
    have hle := Scanner.cost_add_le hdeferred hnext
    have htotal := Slip.total_le (scanner.deferred.map .ofLexeme)
    have hnew : (L.sync ⟨scanner, [l]⟩).queue =
        .ofLexeme l :: scanner.deferred.map .ofLexeme := by
      unfold Ledger.sync
      rw [hqueue]
      rfl
    unfold weight
    rw [hnew, hqueue, Slip.total, Slip.total]
    rw [List.length_map] at htotal
    show _ + 3 * scanner.unread ≤ _
    omega
  | cons l' ls =>
    -- The first lexeme that waits is looked at, and all slips stay as they are.
    obtain ⟨rfl, hls, hunread⟩ := Scanner.next_of_deferred hdeferred hnext
    have hsame : Stream.waiting ⟨scanner, [l]⟩ = L.stream.waiting := by
      rw [hwaiting, hdeferred, ← hls]
      rfl
    refine ⟨h.sync ⟨[], by rw [List.append_nil, hsame]⟩, ?_⟩
    have hnew : (L.sync ⟨scanner, [l]⟩).queue = L.queue := by
      unfold Ledger.sync
      rw [hsame, hlength, List.drop_length, List.map_nil, List.append_nil]
    unfold weight
    rw [hnew]
    show _ + 3 * scanner.unread ≤ _
    exact Nat.le_of_eq (by rw [hunread])

theorem Shows.peek_eq (h : L.Kept behindTag) (hx : L.Shows x) : Audit.peek L = .ok x.lexeme L := by
  have hsync := h.sync_self
  obtain ⟨xs, ls, -, hahead⟩ := hx
  obtain ⟨⟨scanner, ahead⟩, queue, taken⟩ := L
  cases hahead
  show EStateM.Result.ok x.lexeme (Ledger.sync _ ⟨scanner, x.lexeme :: ls⟩) = _
  rw [hsync]

/-- When nothing was looked at, looking scans, and slips are made for what is scanned. -/
theorem peek_of_next {r : Except ScanError Lexeme} (hahead : L.stream.ahead = [])
    (hnext : L.stream.scanner.next = (r, scanner)) :
    Audit.peek L = match r with
      | .ok l => .ok l (L.sync ⟨scanner, [l]⟩)
      | .error e => .error (.scan e) (L.sync ⟨scanner, []⟩) := by
  obtain ⟨⟨scanner', ahead⟩, queue, taken⟩ := L
  cases hahead
  cases r <;> simp [Audit.peek, Stream.predict, Stream.lookAhead, hnext]

/-- Looking at the next lexeme raises what is wrong with the template, or shows a slip and
leaves no more to do. -/
theorem Kept.peek (h : L.Kept behindTag) :
    (∃ e L', Audit.peek L = .error (.scan e) L' ∧ Grammar.peek L.stream = .error (.scan e) ∧
      L'.Kept behindTag) ∨
    ∃ x L', Audit.peek L = .ok x.lexeme L' ∧ Grammar.peek L.stream = .ok (x.lexeme, L'.stream) ∧
      L'.Kept behindTag ∧ L'.Shows x ∧ L'.weight ≤ L.weight ∧ ∀ y, L.Shows y → y = x := by
  cases hahead : L.stream.ahead with
  | cons l ls =>
    obtain ⟨x, hx, rfl⟩ := h.exists_shows hahead
    refine .inr ⟨x, L, hx.peek_eq h, Grammar.peek_of_ahead hahead, h, hx, Nat.le_refl _, ?_⟩
    rintro y ⟨ys, -, hy, -⟩
    obtain ⟨xs, -, hqueue, -⟩ := hx
    exact (List.cons.inj (hy.symm.trans hqueue)).1
  | nil =>
    have hnone : ∀ y, ¬L.Shows y := by
      rintro y ⟨xs, ls, -, hls⟩
      rw [hahead] at hls
      cases hls
    match hnext : L.stream.scanner.next with
    | (.error e, scanner) =>
      -- Scanning fails only if no lexeme waits, so no slip is lost.
      have hdeferred : L.stream.scanner.deferred = [] := by
        cases Scanner.Step.of_next hnext <;> assumption
      have hwaiting : L.stream.waiting = [] := by rw [Stream.waiting, hahead, hdeferred]; rfl
      exact .inl ⟨e, _, peek_of_next hahead hnext, Grammar.peek_of_error hahead hnext,
        h.sync (by rw [hwaiting]; exact List.nil_prefix)⟩
    | (.ok l, scanner) =>
      obtain ⟨hkept, hle⟩ := h.scan hahead hnext
      obtain ⟨x, hx, rfl⟩ := hkept.exists_shows rfl
      exact .inr ⟨x, _, peek_of_next hahead hnext, Grammar.peek_of_ok hahead hnext, hkept, hx, hle,
        fun y hy => absurd hy (hnone y)⟩

/-- Taking a lexeme that was looked at. -/
theorem Shows.take_eq (h : L.Kept behindTag) (hx : L.Shows x) : Audit.take L = .ok x L.tail := by
  have hsync := (h.tail hx).sync_self
  obtain ⟨xs, ls, hqueue, hahead⟩ := hx
  obtain ⟨⟨scanner, ahead⟩, queue, taken⟩ := L
  cases hqueue
  cases hahead
  exact congrArg (EStateM.Result.ok x) hsync

/-- A routine that is entered in front of the lexeme it needs takes it. -/
theorem Shows.accept_eq {α : Type} {view : Token → Option α} {a : α}
    (h : L.Kept behindTag) (hx : L.Shows x) (hview : view x.lexeme.token = some a) :
    Audit.accept routine view L = .ok (a, x.lexeme.line) L.tail := by
  rw [Audit.accept, Audit.bind_of_ok (hx.take_eq h), hview]
  rfl

theorem Shows.expect_eq (h : L.Kept behindTag) (hx : L.Shows x) (hkind : x.kind = routine.expects) :
    Audit.expect routine L = .ok x.lexeme.line L.tail := by
  have haccept : Audit.accept routine
      (fun token => if token.kind = routine.expects then some token else none) L =
      .ok (x.lexeme.token, x.lexeme.line) L.tail := hx.accept_eq h (if_pos hkind)
  rw [Audit.expect, Audit.bind_of_ok haccept]
  rfl

/-- A routine that is entered in front of another lexeme fails. -/
theorem Shows.expect_error (h : L.Kept behindTag) (hx : L.Shows x)
    (hkind : x.kind ≠ routine.expects) :
    Audit.expect routine L = .error (.unexpected routine x.kind x.lexeme.line) L.tail := by
  have haccept : Audit.accept routine
      (fun token => if token.kind = routine.expects then some token else none) L =
      .error (.unexpected routine x.kind x.lexeme.line) L.tail := by
    have hview : (if x.lexeme.token.kind = routine.expects then some x.lexeme.token else none) =
        none := if_neg hkind
    rw [Audit.accept, Audit.bind_of_ok (hx.take_eq h), hview]
    rfl
  rw [Audit.expect, Audit.bind_of_error haccept]

section

variable {β : Type}

/-- Taking a shorthand and putting it back behind a tag `div`. -/
theorem Shows.putBack_bind (h : L.Kept behindTag) (hx : L.Shows x) (f : Unit → Audit β) :
    (Audit.take >>= fun y => Audit.lastPlace >>= fun place =>
      Audit.defer (.ofLexeme ⟨.tag "div", y.lexeme.line⟩) >>= fun _ =>
        Audit.defer { y with origin := some place } >>= f) L = f () (L.tail.returned x) := by
  rw [Audit.bind_of_ok (hx.take_eq h)]
  rfl

theorem Shows.grammar_peek_bind (hx : L.Shows x) (g : Lexeme → Grammar β) :
    (Grammar.peek >>= g) L.stream = g x.lexeme L.stream := by
  obtain ⟨xs, ls, -, hahead⟩ := hx
  show (Grammar.peek L.stream >>= fun (l, s) => g l s) = _
  rw [Grammar.peek_of_ahead hahead]
  rfl

theorem Shows.grammar_take_bind (hx : L.Shows x) (g : Lexeme → Grammar β) :
    (Grammar.take >>= g) L.stream = g x.lexeme L.tail.stream := by
  obtain ⟨xs, ls, -, hahead⟩ := hx
  show (Grammar.take L.stream >>= fun (l, s) => g l s) = _
  rw [Grammar.take_of_ahead hahead, tail, hahead]
  rfl

theorem Shows.grammar_drop_bind (hx : L.Shows x) (g : Unit → Grammar β) :
    (Grammar.drop >>= g) L.stream = g () L.tail.stream := by
  rw [Grammar.drop, bind_assoc, hx.grammar_take_bind]
  rfl

theorem Shows.grammar_putBack_bind (hx : L.Shows x) (g : Unit → Grammar β) :
    (Grammar.drop >>= fun _ => Grammar.putBack ⟨.tag "div", x.lexeme.line⟩ >>= fun _ =>
      Grammar.putBack x.lexeme >>= g) L.stream = g () (L.tail.returned x).stream := by
  rw [hx.grammar_drop_bind]
  rfl

end

end Ledger

end Offside
