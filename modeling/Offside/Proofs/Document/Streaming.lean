import Offside.Proofs.Document.Reading
import Offside.Proofs.Token.Scan

/-!
# The stream refines the list

A stream scans its lexemes while they are read, keeps the ones that were looked at,
and takes shorthands back behind a tag `div`. It is shown here that none of this can
be noticed: reading from a stream comes to the same as `Reading` from the list of all
its lexemes.

* `Yields s c`: the scanner `s` scans what is left at the cursor `c`.
* `Sees s c`: the stream `s` has looked at the next lexeme at `c`, and scans what is
  behind it.
* `Agrees`: two results are the same, up to a stream for a cursor.

Shorthands are put back only when nothing else waits in the scanner
(`Sees.shorthand`), so that the scanner hands out the tag and the shorthand next and
is then where it was (`Sees.putBack_bind`).
-/

set_option autoImplicit false

namespace Offside

open Reading (Cursor Result)

/-! ### Scanners and cursors -/

namespace Scanner

/-- What was put aside belongs to the current line and does not end the template, and
a shorthand among it comes last. -/
structure Orderly (s : Scanner) : Prop where
  line : ∀ l ∈ s.deferred, l.line = s.line
  ends : ∀ l ∈ s.deferred, l.kind ≠ .eos
  shorthand : ∀ l ∈ s.deferred.dropLast, l.kind.isShorthand = false

variable {s s' : Scanner} {l : Lexeme}

theorem orderly_of_nil (h : s.deferred = []) : s.Orderly := by
  constructor <;> simp [h]

/-- A lexeme is handed out on the line that was reached, and a shorthand only when
nothing waits behind it. -/
theorem Orderly.next (hs : s.Orderly) (hnext : s.next = (.ok l, s')) :
    s'.Orderly ∧ l.line = s'.line ∧ s'.last = some l.kind ∧
      (l.kind.isShorthand = true → s'.deferred = []) := by
  cases Step.of_next hnext with
  | deferred l ls hdeferred =>
    have hmem : l ∈ s.deferred := by simp [hdeferred]
    refine ⟨⟨?_, ?_, ?_⟩, hs.line l hmem, rfl, ?_⟩
    · exact fun l' hl' => hs.line l' (by rw [hdeferred]; exact .tail _ hl')
    · exact fun l' hl' => hs.ends l' (by rw [hdeferred]; exact .tail _ hl')
    · intro l' hl'
      have hne : ls ≠ [] := by
        rintro rfl
        exact absurd hl' List.not_mem_nil
      exact hs.shorthand l' (by
        rw [hdeferred, List.dropLast_cons_of_ne_nil hne]
        exact .tail _ hl')
    -- A shorthand that is not the last one put aside would break the order.
    · intro hshort
      cases ls with
      | nil => rfl
      | cons l' ls =>
        have hfirst := hs.shorthand l (by rw [hdeferred]; exact .head _)
        rw [hshort] at hfirst
        exact absurd hfirst (by simp)
  | close width opened hdeferred => exact ⟨orderly_of_nil hdeferred, rfl, rfl, by simp [hdeferred]⟩
  | eos hdeferred => exact ⟨orderly_of_nil hdeferred, rfl, rfl, by simp [hdeferred]⟩
  | token c cs token rest hdeferred =>
    exact ⟨orderly_of_nil hdeferred, rfl, rfl, fun _ => hdeferred⟩
  | blank cs hdeferred | verbatimBlank cs region hdeferred | verbatimLine cs region hdeferred
  | same cs hdeferred | deeper cs hdeferred =>
    exact ⟨orderly_of_nil hdeferred, rfl, rfl, fun _ => hdeferred⟩
  | shallower cs closed indents hdeferred =>
    have houtdent : ∀ l ∈ List.replicate (closed - 1) (Lexeme.mk .outdent (s.line + 1)),
        l = ⟨.outdent, s.line + 1⟩ := fun l hl => List.eq_of_mem_replicate hl
    refine ⟨⟨?_, ?_, ?_⟩, rfl, rfl, fun h => nomatch h⟩
    · intro l hl
      rw [houtdent l hl]
      rfl
    · intro l hl
      rw [houtdent l hl]
      exact nofun
    · intro l hl
      rw [houtdent l (List.dropLast_subset _ hl)]
      rfl

/-- At its end a template ends over and over. -/
theorem tape_of_ended (hdeferred : s.deferred = []) (hrest : s.rest = [])
    (hopened : s.indents.opened = []) : s.tape = ⟨[⟨⟨.eos, s.line⟩, s.region.isSome⟩], none⟩ := by
  have hnext : s.next = (.ok ⟨.eos, s.line⟩, { s with last := some .eos }) := by
    obtain ⟨layout, rest, line, ⟨opened⟩, region, last, deferred⟩ := s
    cases hdeferred
    cases hrest
    cases hopened
    rfl
  exact tape_of_eos hnext rfl

/-- An end that was not put aside is the end of what is scanned. -/
theorem ended_of_eos (hs : s.Orderly) (hnext : s.next = (.ok l, s'))
    (hl : l.kind = .eos) : s'.deferred = [] ∧ s'.rest = [] ∧ s'.indents.opened = [] := by
  cases Step.of_next hnext with
  | deferred l ls hdeferred => exact absurd hl (hs.ends l (by simp [hdeferred]))
  | eos hdeferred hrest hopened => exact ⟨hdeferred, hrest, hopened⟩
  | token c cs token rest hdeferred hrest hc hread =>
    exact absurd hl (kind_ne_of_readInline hread rfl)
  | close | blank | verbatimBlank | verbatimLine | same | deeper | shallower => cases hl

/-- A scanner scans what is left at a cursor, up to the end or the same failure. Once
the end was taken, it is scanned again. -/
structure Yields (s : Scanner) (c : Cursor) : Prop where
  orderly : s.Orderly
  line : s.line = c.line
  failure : s.tape.failure = c.failure
  lexemes : s.tape.lexemes = c.rest ∨
    c.rest = [] ∧ c.failure = none ∧ s.tape.lexemes = [⟨.eos, s.line⟩]

/-- A scanner that fails has come to the failure of its cursor. -/
theorem Yields.error {c : Cursor} {e : ScanError} (h : s.Yields c)
    (hnext : s.next = (.error e, s')) : c.rest = [] ∧ c.failure = some e := by
  have htape := tape_of_error hnext
  refine ⟨?_, by rw [← h.failure, htape]⟩
  rcases h.lexemes with hl | ⟨-, -, hl⟩
  · rw [← hl, htape]
    rfl
  · rw [htape] at hl
    exact absurd hl (by simp [Tape.lexemes])

/-- What a scanner scans next is the next lexeme at its cursor, and then it scans what
is left behind it. -/
theorem Yields.ok {c : Cursor} (h : s.Yields c) (hnext : s.next = (.ok l, s')) :
    l = c.next ∧ c.Goes ∧ s'.Yields c.take ∧
      (l.kind ≠ .eos → s'.tape.lexemes = c.take.rest) := by
  obtain ⟨hs', hline, -, -⟩ := h.orderly.next hnext
  obtain ⟨rest, failure, line, place, spans⟩ := c
  by_cases hl : l.kind = .eos
  · have htape := tape_of_eos hnext hl
    obtain rfl : none = failure := (congrArg Tape.failure htape).symm.trans h.failure
    -- The template has ended, whether or not the list still holds its end.
    have hrest : rest = [l] ∨ rest = [] ∧ l = ⟨.eos, line⟩ := by
      rcases h.lexemes with hlex | ⟨hnil, -, hlex⟩
      · exact .inl (hlex.symm.trans (congrArg Tape.lexemes htape))
      · rw [htape, h.line] at hlex
        exact .inr ⟨hnil, (List.cons.inj hlex).1⟩
    have hend : s'.tape = ⟨[⟨⟨.eos, s'.line⟩, s'.region.isSome⟩], none⟩ := by
      obtain ⟨hdeferred, hrest, hopened⟩ := ended_of_eos h.orderly hnext hl
      exact tape_of_ended hdeferred hrest hopened
    rcases hrest with rfl | ⟨rfl, rfl⟩
    · exact ⟨rfl, fun _ => rfl, ⟨hs', hline.symm, by rw [hend]; rfl,
        .inr ⟨rfl, rfl, by rw [hend]; rfl⟩⟩, fun hne => absurd hl hne⟩
    · exact ⟨rfl, fun _ => rfl, ⟨hs', hline.symm, by rw [hend]; rfl,
        .inr ⟨rfl, rfl, by rw [hend]; rfl⟩⟩, fun hne => absurd hl hne⟩
  · have htape := tape_of_ok hnext hl
    have hrest : rest = l :: s'.tape.lexemes := by
      rcases h.lexemes with hlex | ⟨-, -, hlex⟩
      · exact hlex.symm.trans (congrArg Tape.lexemes htape)
      · rw [htape] at hlex
        have hfirst : l = ⟨.eos, s.line⟩ := (List.cons.inj hlex).1
        exact absurd (congrArg Lexeme.kind hfirst) hl
    have hfailure : s'.tape.failure = failure :=
      (congrArg Tape.failure htape).symm.trans h.failure
    subst hrest
    exact ⟨rfl, nofun, ⟨hs', hline.symm, hfailure, .inl rfl⟩, fun _ => rfl⟩

end Scanner

/-! ### Streams and cursors -/

namespace Stream

/-- A stream has looked at the next lexeme at a cursor and scans what is behind it. -/
structure Sees (s : Stream) (c : Cursor) : Prop where
  ahead : s.ahead = [c.next]
  line : c.line = c.next.line
  goes : c.Goes
  last : s.scanner.last = some c.next.kind
  yields : s.scanner.Yields c.take
  shorthand : c.next.kind.isShorthand = true →
    s.scanner.deferred = [] ∧ s.scanner.tape.lexemes = c.take.rest

/-- A stream has not looked at anything, and scans what is left at a cursor. -/
structure Stands (s : Stream) (c : Cursor) : Prop where
  ahead : s.ahead = []
  yields : s.scanner.Yields c

/-- A stream has what is left at a cursor. -/
def Follows (s : Stream) (c : Cursor) : Prop :=
  s.Stands c ∨ s.Sees c

variable {s : Stream} {c : Cursor}

theorem Stands.follows (h : s.Stands c) : s.Follows c :=
  .inl h

theorem Sees.follows (h : s.Sees c) : s.Follows c :=
  .inr h

theorem Follows.line_eq (h : s.Follows c) : s.line = c.line := by
  rcases h with h | h
  · exact h.yields.line
  · rw [h.line]
    exact h.yields.line

end Stream

/-! ### Results -/

section

variable {α β : Type} {c : Cursor}

/-- Reading from a stream comes to what reading at a cursor comes to, and then the
stream and the cursor are related. -/
def Agrees (R : Stream → Cursor → Prop) (x : Except ParseError (α × Stream))
    (y : Result α c) : Prop :=
  match y.outcome with
  | .error e => x = .error e
  | .ok (a, c') => ∃ s, x = .ok (a, s) ∧ R s c'

variable {R R' : Stream → Cursor → Prop} {x : Except ParseError (α × Stream)}

variable {c' : Cursor} {s : Stream}

/-- Only the outcome of a result matters. -/
theorem Agrees.of_outcome {y : Result α c} {y' : Result α c'}
    (h : Agrees R x y) (houtcome : y'.outcome = y.outcome) : Agrees R x y' := by
  unfold Agrees
  rw [houtcome]
  exact h

theorem Agrees.widen {y : Result α c'} (h : Agrees R x y)
    (hle : c'.left ≤ c.left) : Agrees R x (y.widen hle) :=
  h.of_outcome (Result.outcome_widen y hle)

theorem agrees_error {e : ParseError} {y : Result α c} (h : y.outcome = .error e) :
    Agrees R (.error e) y := by
  unfold Agrees
  rw [h]

theorem agrees_gives {y : Result α c} {a : α} (h : y.Gives a c')
    (hs : R s c') : Agrees R (.ok (a, s)) y := by
  unfold Agrees
  rw [h]
  exact ⟨s, rfl, hs⟩

theorem agrees_give (a : α) (h : R s c) : Agrees R (.ok (a, s)) (Result.give a c) :=
  agrees_gives rfl h

/-- Agreement is a common error, or a common value with related states. -/
theorem Agrees.cases {y : Result α c} (h : Agrees R x y) :
    (∃ e, x = .error e ∧ y.outcome = .error e) ∨
      ∃ a s c', x = .ok (a, s) ∧ y.Gives a c' ∧ R s c' := by
  unfold Agrees at h
  match hy : y.outcome with
  | .error e =>
    rw [hy] at h
    exact .inl ⟨e, h, rfl⟩
  | .ok (a, c') =>
    rw [hy] at h
    obtain ⟨s, hx, hs⟩ := h
    exact .inr ⟨a, s, c', hx, hy, hs⟩

theorem Agrees.mono {y : Result α c} (h : Agrees R x y) (hR : ∀ s c, R s c → R' s c) :
    Agrees R' x y := by
  obtain ⟨e, rfl, hy⟩ | ⟨a, s, c', rfl, hy, hs⟩ := h.cases
  · exact agrees_error hy
  · exact agrees_gives hy (hR s c' hs)

/-- Two computations agree if their first parts do and whatever follows does. -/
theorem Agrees.bind {m : Grammar α} {f : α → Grammar β} {y : Result α c}
    {g : α → (c' : Cursor) → c'.left ≤ c.left → Result β c'} (h : Agrees R (m s) y)
    (hf : ∀ a s' c' hle, R s' c' → Agrees R' (f a s') (g a c' hle)) :
    Agrees R' ((m >>= f) s) (y.andThen g) := by
  have hrun : (m >>= f) s = m s >>= fun (a, s') => f a s' := rfl
  obtain ⟨e, hm, hy⟩ | ⟨a, s', c', hm, hy, hs'⟩ := h.cases
  · rw [hrun, hm]
    exact agrees_error (Result.outcome_andThen_of_error hy g)
  · obtain ⟨hle, houtcome⟩ := Result.outcome_andThen hy g
    rw [hrun, hm]
    exact (hf a s' c' hle hs').of_outcome houtcome

theorem Agrees.map {m : Grammar α} {f : α → β} {y : Result α c}
    (h : Agrees R (m s) y) : Agrees R ((m >>= fun a => pure (f a)) s) (y.map f) :=
  h.bind fun a _ _ _ hs' => agrees_give (f a) hs'

end

/-! ### Looking, taking and putting back -/

namespace Grammar

variable {s : Stream} {l : Lexeme}

theorem peek_of_ahead {ls : List Lexeme} (h : s.ahead = l :: ls) : peek s = .ok (l, s) := by
  obtain ⟨scanner, ahead⟩ := s
  cases h
  rfl

theorem peek_of_ok {scanner : Scanner} (h : s.ahead = [])
    (hnext : s.scanner.next = (.ok l, scanner)) : peek s = .ok (l, ⟨scanner, [l]⟩) := by
  obtain ⟨scanner', ahead⟩ := s
  cases h
  simp [peek, Stream.predict, Stream.lookAhead, hnext]

theorem peek_of_error {scanner : Scanner} {e : ScanError} (h : s.ahead = [])
    (hnext : s.scanner.next = (.error e, scanner)) : peek s = .error (.scan e) := by
  obtain ⟨scanner', ahead⟩ := s
  cases h
  simp [peek, Stream.predict, Stream.lookAhead, hnext]

theorem line_bind {α : Type} (f : Nat → Grammar α) : (line >>= f) s = f s.line s :=
  rfl

theorem take_of_ahead {ls : List Lexeme} (h : s.ahead = l :: ls) :
    take s = .ok (l, { s with ahead := ls }) := by
  obtain ⟨scanner, ahead⟩ := s
  cases h
  rfl

end Grammar

section

variable {α : Type} {c : Cursor} {s : Stream} {R : Stream → Cursor → Prop}

/-- A scanner that hands out a lexeme becomes a stream that has looked at it. -/
theorem Scanner.Yields.sees {scanner scanner' : Scanner} {l : Lexeme} (h : scanner.Yields c)
    (hnext : scanner.next = (.ok l, scanner')) : Stream.Sees ⟨scanner', [l]⟩ c.seen := by
  obtain ⟨-, -, hlast, hdeferred⟩ := h.orderly.next hnext
  obtain ⟨rfl, hgoes, hyields, hlexemes⟩ := h.ok hnext
  refine ⟨by rw [Cursor.next_seen], ?_, hgoes, ?_, ?_, ?_⟩
  · rw [Cursor.next_seen]
    rfl
  · rw [Cursor.next_seen]
    exact hlast
  · rw [Cursor.take_seen]
    exact hyields
  · rw [Cursor.next_seen, Cursor.take_seen]
    intro hshort
    refine ⟨hdeferred hshort, hlexemes ?_⟩
    intro heos
    rw [heos] at hshort
    cases hshort

theorem Stream.Sees.peek_bind (h : s.Sees c) (f : Lexeme → Grammar α) :
    (Grammar.peek >>= f) s = f c.next s := by
  show (Grammar.peek s >>= fun (l, s) => f l s) = f c.next s
  rw [Grammar.peek_of_ahead h.ahead]
  rfl

/-- A stream that takes what it has looked at goes on behind it. -/
theorem Stream.Sees.take (h : s.Sees c) {c' : Cursor} {f : Lexeme → Grammar α} {y : Result α c'}
    (hf : ∀ s', s'.Stands c.take → Agrees R (f c.next s') y) :
    Agrees R ((Grammar.take >>= f) s) y := by
  have hrun : (Grammar.take >>= f) s = f c.next { s with ahead := [] } := by
    show (Grammar.take s >>= fun (l, s) => f l s) = _
    rw [Grammar.take_of_ahead h.ahead]
    rfl
  rw [hrun]
  exact hf _ ⟨rfl, h.yields⟩

theorem Stream.Sees.drop (h : s.Sees c) {c' : Cursor} {f : Unit → Grammar α} {y : Result α c'}
    (hf : ∀ s', s'.Stands c.take → Agrees R (f () s') y) : Agrees R ((Grammar.drop >>= f) s) y := by
  rw [Grammar.drop, bind_assoc]
  exact h.take hf

/-- Looking at the next lexeme of a stream is looking at the cursor. -/
theorem Stream.Follows.look (h : s.Follows c) {f : Lexeme → Grammar α}
    {g : Unit → (c' : Cursor) → c'.left ≤ c.left → Result α c'}
    (hf : ∀ s' c' hle, s'.Sees c' → Agrees R (f c'.next s') (g () c' hle)) :
    Agrees R ((Grammar.peek >>= f) s) ((Reading.look c).andThen g) := by
  -- Either the lexeme has to be scanned now, or it was looked at before.
  rcases h with ⟨hahead, hyields⟩ | hsees
  · match hnext : s.scanner.next with
    | (.error e, scanner) =>
      obtain ⟨hrest, hfailure⟩ := hyields.error hnext
      have hrun : (Grammar.peek >>= f) s = .error (.scan e) := by
        show (Grammar.peek s >>= fun (l, s) => f l s) = _
        rw [Grammar.peek_of_error hahead hnext]
        rfl
      have hlook := Reading.outcome_look_of_failure hrest hfailure
      rw [hrun]
      exact agrees_error (Result.outcome_andThen_of_error hlook g)
    | (.ok l, scanner) =>
      obtain ⟨rfl, hgoes, -, -⟩ := hyields.ok hnext
      have hrun : (Grammar.peek >>= f) s = f c.seen.next ⟨scanner, [c.next]⟩ := by
        show (Grammar.peek s >>= fun (l, s) => f l s) = _
        rw [Grammar.peek_of_ok hahead hnext, Cursor.next_seen]
        rfl
      obtain ⟨hle, hlook⟩ := Result.outcome_andThen (Reading.outcome_look hgoes) g
      rw [hrun]
      exact (hf _ _ hle (hyields.sees hnext)).of_outcome hlook
  · obtain ⟨hle, hlook⟩ := Result.outcome_andThen (Reading.outcome_look hsees.goes) g
    have hseen : c.seen = c := by rw [Cursor.seen, ← hsees.line]
    rw [hsees.peek_bind, ← c.next_seen]
    exact (hf s _ hle (hseen.symm ▸ hsees)).of_outcome hlook

end

namespace Stream

/-- The stream that has put a shorthand back behind a tag `div`. -/
def putBackShorthand (s : Stream) (l : Lexeme) : Stream :=
  (s.defer ⟨.tag "div", l.line⟩).defer l

/-- The stream that has taken the tag `div` again. -/
def retakeShorthand (s : Stream) (l : Lexeme) : Stream :=
  ⟨{ s.scanner with deferred := [l], last := some .tag }, []⟩

variable {s : Stream} {c : Cursor}

theorem next_putBackShorthand {l : Lexeme} (h : s.scanner.deferred = []) :
    (s.putBackShorthand l).scanner.next =
      (.ok ⟨.tag "div", l.line⟩, (s.retakeShorthand l).scanner) := by
  obtain ⟨⟨layout, rest, line, indents, region, last, deferred⟩, ahead⟩ := s
  cases h
  rfl

/-- A shorthand that was put back is scanned again, and then the scanner is where it
was. -/
theorem Sees.next_retakeShorthand (h : s.Sees c) (hshort : c.next.kind.isShorthand = true) :
    (s.retakeShorthand c.next).scanner.next = (.ok c.next, s.scanner) := by
  have hdeferred := (h.shorthand hshort).1
  have hlast := h.last
  -- Handing out the shorthand again must not open a region that was not there.
  have hopens : c.next.token.opensVerbatim = false := by
    unfold Lexeme.kind at hshort
    cases htoken : c.next.token
    case idName name | className name => rfl
    all_goals
      rw [htoken] at hshort
      cases hshort
  obtain ⟨⟨layout, rest, line, indents, region, last, deferred⟩, ahead⟩ := s
  cases hdeferred
  cases hlast
  simp [retakeShorthand, Scanner.next, Scanner.emit, hopens]

theorem Sees.follows_retakeShorthand (h : s.Sees c)
    (hshort : c.next.kind.isShorthand = true) : (s.retakeShorthand c.next).Follows c := by
  have hkind : c.next.kind ≠ .eos := by
    intro heos
    rw [heos] at hshort
    cases hshort
  have hline : s.scanner.line = c.next.line := h.yields.line
  have htape := Scanner.tape_of_ok (h.next_retakeShorthand hshort) hkind
  -- What is scanned from here is the shorthand and then what was behind it.
  refine .inl ⟨rfl, ⟨⟨?_, ?_, ?_⟩, ?_, ?_, .inl ?_⟩⟩
  · intro l hl
    rw [List.mem_singleton.1 hl]
    exact hline.symm
  · intro l hl
    rw [List.mem_singleton.1 hl]
    exact hkind
  · exact fun l hl => absurd hl List.not_mem_nil
  · exact hline.trans h.line.symm
  · rw [htape]
    exact h.yields.failure
  · rw [htape, Cursor.rest_eq_of_next hkind, ← (h.shorthand hshort).2]
    rfl

/-- Taking a shorthand and putting it back behind a tag `div`. -/
theorem Sees.putBack_bind {α : Type} (h : s.Sees c) (f : Unit → Grammar α) :
    (Grammar.drop >>= fun _ => Grammar.putBack ⟨.tag "div", c.next.line⟩ >>= fun _ =>
      Grammar.putBack c.next >>= f) s = f () ({ s with ahead := [] }.putBackShorthand c.next) := by
  rw [Grammar.drop, bind_assoc]
  show (Grammar.take s >>= fun (_, s) => f () (s.putBackShorthand c.next)) = _
  rw [Grammar.take_of_ahead h.ahead]
  rfl

/-- A node that starts with a shorthand that was put back is the tag `div`. -/
theorem Sees.node_putBackShorthand (h : s.Sees c)
    (hshort : c.next.kind.isShorthand = true) (fuel : Nat) :
    Grammar.node (fuel + 1) ({ s with ahead := [] }.putBackShorthand c.next) =
      (Grammar.tag fuel (.ofName "div" c.next.line) >>= fun t => pure (some (Node.tag t)))
        (s.retakeShorthand c.next) := by
  have hnext := next_putBackShorthand (s := { s with ahead := [] }) (l := c.next)
    (h.shorthand hshort).1
  rw [Grammar.node]
  show (Grammar.peek _ >>= fun (l, s) => _) = _
  rw [Grammar.peek_of_ok rfl hnext]
  rfl

end Stream

/-! ### Runs of lexemes -/

/-- A loop over lexemes of certain kinds, each of which changes a value, reads a run. -/
theorem agrees_run {β : Type} (loop : Nat → β → Grammar β) {p : Token.Kind → Bool}
    (f : β → Lexeme → β) (b : β) (heos : p .eos = false)
    (hloop : ∀ fuel b, loop (fuel + 1) b = Grammar.peek >>= fun l =>
      if p l.kind then Grammar.drop >>= fun _ => loop fuel (f b l) else pure b)
    {fuel : Nat} {s : Stream} {c : Cursor} (hs : s.Follows c) (hfuel : c.left < fuel) :
    Agrees Stream.Sees (loop fuel b s)
      ((Reading.run p c).map fun taken => taken.foldl f b) := by
  induction fuel generalizing b s c with
  | zero => exact absurd hfuel (Nat.not_lt_zero _)
  | succ fuel ih =>
    -- The run is brought into the shape of the loop: look, and go on behind the lexeme.
    have houtcome : ((Reading.run p c).map fun taken => taken.foldl f b).outcome =
        ((Reading.look c).andThen fun _ c' _ =>
          if p c'.next.kind then
            ((Reading.run p c'.take).map fun taken => taken.foldl f (f b c'.next)).widen
              c'.left_take_le
          else Result.give b c').outcome := by
      rw [Result.outcome_map, Reading.outcome_run_eq heos, ← Result.outcome_map]
      refine Result.outcome_andThen_congr fun _ c' _ => ?_
      split
      · rw [Result.outcome_map, Result.outcome_widen, Result.outcome_widen, Result.outcome_map,
          Result.outcome_map]
        cases (Reading.run p c'.take).outcome <;> rfl
      · rfl
    refine Agrees.of_outcome ?_ houtcome
    rw [hloop]
    refine hs.look fun s' c' hle hsees => ?_
    cases hp : p c'.next.kind with
    | false => exact agrees_give b hsees
    | true =>
      refine hsees.drop fun s'' hs'' => Agrees.widen ?_ c'.left_take_le
      have hlt : c'.take.left < c'.left := by
        refine Cursor.left_take_lt fun h => ?_
        rw [h, heos] at hp
        cases hp
      exact ih (f b c'.next) hs''.follows (by omega)

section

variable {s : Stream} {c : Cursor} {fuel : Nat}

theorem skipNewlines_succ (fuel : Nat) (_ : Unit) :
    Grammar.skipNewlines (fuel + 1) = Grammar.peek >>= fun l =>
      if decide (l.kind = .newline) then Grammar.drop >>= fun _ => Grammar.skipNewlines fuel
      else pure () := by
  simp [Grammar.skipNewlines]

theorem attributes_succ (fuel : Nat) (e : Element) :
    Grammar.attributes (fuel + 1) e = Grammar.peek >>= fun l =>
      if Reading.isMark l.kind then
        Grammar.drop >>= fun _ => Grammar.attributes fuel (Reading.mark e l)
      else pure e := by
  rw [Grammar.attributes]
  congr 1
  funext l
  obtain ⟨token, line⟩ := l
  cases token <;> rfl

theorem agrees_skipNewlines (hs : s.Follows c) (hfuel : c.left < fuel) :
    Agrees Stream.Sees (Grammar.skipNewlines fuel s) (Reading.skipNewlines c) :=
  agrees_run (fun fuel _ => Grammar.skipNewlines fuel) (fun _ _ => ()) () rfl skipNewlines_succ hs
    hfuel

theorem textLines_succ (fuel : Nat) (text : Text) :
    Grammar.textLines (fuel + 1) text = Grammar.peek >>= fun l =>
      if Reading.isTextual l.kind then
        Grammar.drop >>= fun _ => Grammar.textLines fuel (Reading.addTo text l)
      else pure text := by
  rw [Grammar.textLines]
  congr 1
  funext ⟨token, line⟩
  cases token <;> rfl

theorem agrees_textBlock (hs : s.Follows c) (hfuel : c.left ≤ fuel) :
    Agrees Stream.Sees (Grammar.textBlock fuel s) (Reading.textBlock c) := by
  have hrun : Grammar.textBlock fuel s = (Grammar.peek >>= fun l =>
      if Reading.isTextual l.kind then
        Grammar.drop >>= fun _ => Grammar.textLines fuel (Reading.addTo { line := c.line } l)
      else throw (.unexpectedToken .indent l.kind l.line)) s := by
    rw [Grammar.textBlock, Grammar.line_bind, hs.line_eq]
    refine congrArg (fun k => (Grammar.peek >>= k) s) (funext fun ⟨token, line⟩ => ?_)
    cases token <;> rfl
  rw [hrun, Reading.textBlock]
  refine hs.look fun s' c' hle hsees => ?_
  cases htextual : Reading.isTextual c'.next.kind with
  | false => exact agrees_error rfl
  | true =>
    -- With one more unit of fuel the first line is read by the loop as well.
    have hlines := agrees_run Grammar.textLines Reading.addTo { line := c.line } rfl
      textLines_succ hsees.follows (show c'.left < fuel + 1 by omega)
    rw [textLines_succ, hsees.peek_bind, if_pos htextual] at hlines
    exact hlines

theorem agrees_filter (name : String) (line : Nat) (hs : s.Follows c) (hfuel : c.left ≤ fuel) :
    Agrees Stream.Sees (Grammar.filter fuel name line s) (Reading.filter name line c) := by
  rw [Grammar.filter, Reading.filter]
  refine hs.look fun s' c' hle hsees => ?_
  cases c'.next.token
  case attributes raw attributes =>
    refine hsees.drop fun s'' hs'' => Agrees.widen ?_ c'.left_take_le
    exact (agrees_textBlock hs''.follows (Nat.le_trans c'.left_take_le (by omega))).map
  all_goals exact (agrees_textBlock hsees.follows (by omega)).map

end

/-! ### Nodes and blocks -/

namespace Grammar

/-- Reads the text or the code on the line of a tag. -/
def inline (fuel : Nat) : Grammar (Option Text × Option Code) := do
  let l ← peek
  match l.token with
  | .text value =>
    drop
    pure (some (Text.ofValue (Character.trimLeadingSpaces value) l.line), none)
  | .code expression buffered =>
    drop
    let code ← code fuel (statement l.line expression buffered)
    pure (none, some code)
  | _ => pure (none, none)

/-- Reads what stands behind the text or the code of a tag. -/
def tagEnd (fuel : Nat) (e : Element) (text : Option Text) (code : Option Code) :
    Grammar Tag := do
  skipNewlines fuel
  let text ←
    if (← peek).kind = .text then
      let text := text.getD { line := ← line }
      pure (some (text.addLine ""))
    else pure text
  let children ←
    if (← peek).kind = .indent then block fuel else pure { line := e.line, children := [] }
  return { e with text, code, children }

theorem tag_succ (fuel : Nat) (e : Element) :
    tag (fuel + 1) e = attributes fuel e >>= fun e => inline fuel >>= fun (text, code) =>
      tagEnd fuel e text code := by
  rw [tag]
  congr 1
  funext e
  rw [inline, bind_assoc]
  congr 1
  funext ⟨token, line⟩
  cases token <;> simp only [bind_assoc, pure_bind] <;> rfl

theorem nodes_succ (fuel : Nat) :
    nodes (fuel + 1) = peek >>= fun l =>
      if l.kind = .outdent ∨ l.kind = .eos then pure []
      else if l.kind = .newline then drop >>= fun _ => nodes fuel
      else node fuel >>= fun first => nodes fuel >>= fun others =>
        pure (first.toList ++ others) := by
  rw [nodes]
  congr 1
  funext l
  cases l.kind <;> rfl

end Grammar

/-- With so much fuel, and as much of it as the lexemes that are left can use up,
reading nodes from a stream is reading at a cursor. -/
structure Tracks (fuel : Nat) : Prop where
  node : ∀ {s : Stream} {c : Cursor}, s.Sees c → 5 * c.left + 4 ≤ fuel →
    Agrees Stream.Follows (Grammar.node fuel s) (Reading.node c.next c.take)
  tag : ∀ (e : Element) {s : Stream} {c : Cursor}, s.Follows c → 5 * c.left + 2 ≤ fuel →
    Agrees Stream.Follows (Grammar.tag fuel e s) (Reading.tag e c)
  code : ∀ (head : Statement) {s : Stream} {c : Cursor}, s.Follows c → 5 * c.left + 6 ≤ fuel →
    Agrees Stream.Follows (Grammar.code fuel head s) (Reading.code head c)
  comment : ∀ (head : Remark) {s : Stream} {c : Cursor}, s.Follows c → 5 * c.left + 6 ≤ fuel →
    Agrees Stream.Follows (Grammar.comment fuel head s) (Reading.comment head c)
  block : ∀ {s : Stream} {c : Cursor}, s.Sees c → (h : c.next.kind = .indent) →
    5 * c.left + 1 ≤ fuel → Agrees Stream.Follows (Grammar.block fuel s) (Reading.block c h)
  nodes : ∀ {s : Stream} {c : Cursor}, s.Follows c → 5 * c.left + 5 ≤ fuel →
    Agrees Stream.Sees (Grammar.nodes fuel s) (Reading.nodes c)

section

variable {s : Stream} {c : Cursor} {fuel : Nat}

section

variable (ih : Tracks fuel)

include ih

theorem Tracks.nodes_succ (hs : s.Follows c) (hfuel : 5 * c.left + 5 ≤ fuel + 1) :
    Agrees Stream.Sees (Grammar.nodes (fuel + 1) s) (Reading.nodes c) := by
  rw [Grammar.nodes_succ, Reading.nodes]
  refine hs.look fun s' c' hle hsees => ?_
  split
  · exact agrees_give [] hsees
  · next hclose =>
    have hlt : c'.take.left < c'.left := Cursor.left_take_lt fun heos => hclose (.inr heos)
    split
    · refine hsees.drop fun s'' hs'' => Agrees.widen ?_ c'.left_take_le
      exact ih.nodes hs''.follows (by omega)
    · refine Agrees.widen ?_ c'.left_take_le
      refine (ih.node hsees (by omega)).bind fun first s₂ c₂ hle₂ hs₂ => ?_
      exact (ih.nodes hs₂ (by omega)).map

theorem Tracks.block_succ (hs : s.Sees c) (h : c.next.kind = .indent)
    (hfuel : 5 * c.left + 1 ≤ fuel + 1) :
    Agrees Stream.Follows (Grammar.block (fuel + 1) s) (Reading.block c h) := by
  have hlt : c.take.left < c.left := Cursor.left_take_lt (by simp [h])
  rw [Grammar.block, Reading.block]
  refine hs.take fun s' hs' => Agrees.widen ?_ c.left_take_le
  refine (ih.nodes hs'.follows (by omega)).bind fun children s₁ c₁ hle hsees => ?_
  refine hsees.drop fun s₂ hs₂ => Agrees.widen ?_ (c₁.left_close_le _)
  have hyields := hs₂.yields
  exact agrees_give _ (.inl ⟨hs₂.ahead,
    hyields.orderly, hyields.line, hyields.failure, hyields.lexemes⟩)

/-- An indent opens a block, and anything else none. -/
theorem Tracks.below_of_sees {β : Type} (hs : s.Sees c)
    (hfuel : 5 * c.left + 1 ≤ fuel) (f : Option Block → β) :
    Agrees Stream.Follows
      ((if c.next.kind = .indent then Grammar.block fuel >>= fun b => pure (f (some b))
        else pure (f none)) s)
      ((Reading.below c).map f) := by
  rw [Reading.below]
  split
  · next h => exact (ih.block hs h hfuel).map.of_outcome (Result.outcome_map_map _ _ _)
  · exact agrees_give (f none) hs.follows

theorem Tracks.comment_succ (head : Remark) (hs : s.Follows c) (hfuel : 5 * c.left + 6 ≤ fuel + 1) :
    Agrees Stream.Follows (Grammar.comment (fuel + 1) head s) (Reading.comment head c) := by
  rw [Grammar.comment, Reading.comment]
  refine (agrees_skipNewlines hs (by omega)).bind fun _ s' c' hle hsees => ?_
  rw [hsees.peek_bind]
  by_cases hbuffered : head.buffered = true
  · -- A comment that is shown has nodes below it, any other one text.
    simp only [if_pos hbuffered, bind_map_left, pure_bind]
    exact ih.below_of_sees hsees (by omega) (Comment.mk head)
  · simp only [if_neg hbuffered, pure_bind]
    split
    · exact ((agrees_textBlock hsees.follows (by omega)).mono fun _ _ => Stream.Sees.follows).map
    · exact agrees_give _ hsees.follows

theorem Tracks.code_succ (head : Statement) (hs : s.Follows c) (hfuel : 5 * c.left + 6 ≤ fuel + 1) :
    Agrees Stream.Follows (Grammar.code (fuel + 1) head s) (Reading.code head c) := by
  rw [Grammar.code, Reading.code]
  refine (agrees_skipNewlines hs (by omega)).bind fun _ s' c' hle hsees => ?_
  rw [hsees.peek_bind]
  by_cases hverbatim : head.verbatim = true
  · simp only [if_pos hverbatim, pure_bind]
    exact ((agrees_textBlock hsees.follows (by omega)).mono fun _ _ => Stream.Sees.follows).map
  · simp only [if_neg hverbatim, bind_map_left, pure_bind]
    exact ih.below_of_sees hsees (by omega) (Code.mk head)

theorem Tracks.tagEnd (e : Element) (text : Option Text) (code : Option Code)
    (hs : s.Follows c) (hfuel : 5 * c.left + 1 ≤ fuel) :
    Agrees Stream.Follows (Grammar.tagEnd fuel e text code s)
      ((Reading.skipNewlines c).andThen fun _ c₁ _ => (Reading.below c₁).map fun block =>
        let text :=
          if c₁.next.kind = .text then some ((text.getD { line := c₁.line }).addLine "") else text
        { e with text, code, children := block.getD { line := e.line, children := [] } }) := by
  refine (agrees_skipNewlines hs (by omega)).bind fun _ s' c' hle hsees => ?_
  rw [hsees.peek_bind]
  by_cases htext : c'.next.kind = .text
  · simp only [if_pos htext, Grammar.line_bind, pure_bind, hsees.follows.line_eq]
    rw [hsees.peek_bind]
    exact ih.below_of_sees hsees (by omega) _
  · simp only [if_neg htext, pure_bind]
    rw [hsees.peek_bind]
    exact ih.below_of_sees hsees (by omega) _

theorem Tracks.inline (hs : s.Sees c) (hfuel : 5 * c.left + 1 ≤ fuel) :
    Agrees Stream.Follows (Grammar.inline fuel s) (Reading.inline c) := by
  rw [Grammar.inline, hs.peek_bind]
  cases htoken : c.next.token
  case text value =>
    refine hs.drop fun s' hs' => ?_
    exact agrees_gives (Reading.outcome_inline_of_text htoken) hs'.follows
  case code expression buffered =>
    have hlt : c.take.left < c.left :=
      Cursor.left_take_lt (by simp [Lexeme.kind, htoken, Token.kind])
    refine hs.drop fun s' hs' => ?_
    refine Agrees.of_outcome ?_ (Reading.outcome_inline_of_code htoken)
    exact (ih.code _ hs'.follows (by omega)).map
  all_goals
    refine agrees_gives (Reading.outcome_inline ?_ ?_) hs.follows <;>
      simp [Lexeme.kind, htoken, Token.kind]

theorem Tracks.tag_succ (e : Element) (hs : s.Follows c) (hfuel : 5 * c.left + 2 ≤ fuel + 1) :
    Agrees Stream.Follows (Grammar.tag (fuel + 1) e s) (Reading.tag e c) := by
  rw [Grammar.tag_succ, Reading.tag]
  have hmarks : Agrees Stream.Sees (Grammar.attributes fuel e s) (Reading.attributes e c) :=
    agrees_run Grammar.attributes Reading.mark e rfl attributes_succ hs (by omega)
  refine hmarks.bind fun e s₁ c₁ h₁ hsees => ?_
  refine (ih.inline hsees (by omega)).bind fun line s₂ c₂ h₂ hs₂ => ?_
  exact ih.tagEnd e line.1 line.2 hs₂ (by omega)

end

/-- A shorthand that is put back is read like the first one behind a tag `div`. -/
theorem Tracks.shorthand (ih : ∀ fuel' ≤ fuel, Tracks fuel') (hs : s.Sees c)
    (hshort : c.next.kind.isShorthand = true) (hfuel : 5 * c.left + 4 ≤ fuel + 1) :
    Agrees Stream.Follows
      (Grammar.node fuel ({ s with ahead := [] }.putBackShorthand c.next))
      (Reading.node c.next c.take) := by
  -- Reading the node again takes one more unit of fuel than reading the tag.
  obtain ⟨fuel, rfl⟩ : ∃ fuel', fuel = fuel' + 1 := ⟨fuel - 1, by omega⟩
  rw [hs.node_putBackShorthand hshort]
  have htag := (ih fuel (by omega)).tag (.ofName "div" c.next.line)
    (hs.follows_retakeShorthand hshort) (by omega)
  refine Agrees.of_outcome htag.map ?_
  rw [Reading.outcome_node_of_shorthand hshort, Reading.node]
  rfl

theorem Tracks.node_succ (ih : ∀ fuel' ≤ fuel, Tracks fuel') (hs : s.Sees c)
    (hfuel : 5 * c.left + 4 ≤ fuel + 1) :
    Agrees Stream.Follows (Grammar.node (fuel + 1) s) (Reading.node c.next c.take) := by
  have hfollows : ∀ {s : Stream} {c : Cursor}, s.Sees c → s.Follows c := Stream.Sees.follows
  have htake : c.next.kind ≠ .eos → c.take.left < c.left := Cursor.left_take_lt
  unfold Lexeme.kind at htake
  -- A shorthand is read as a node once more, so its case goes back by more than one call.
  have hshort := Tracks.shorthand ih hs
  unfold Lexeme.kind at hshort
  rw [Reading.node] at hshort ⊢
  rw [Grammar.node, hs.peek_bind]
  cases htoken : c.next.token <;> rw [htoken] at htake hshort
  case tag name =>
    have hlt := htake nofun
    refine hs.drop fun s' hs' => ?_
    exact ((ih fuel (Nat.le_refl _)).tag _ hs'.follows (by omega)).map
  case idName name | className name =>
    dsimp only
    rw [hs.putBack_bind]
    exact hshort rfl hfuel
  case doctype version | text value | indent | outdent | eos =>
    exact hs.drop fun s' hs' => agrees_give _ hs'.follows
  case filter name =>
    have hlt := htake nofun
    refine hs.drop fun s' hs' => ?_
    exact ((agrees_filter name _ hs'.follows (by omega)).mono fun _ _ => hfollows).map
  case pipe =>
    have hlt := htake nofun
    refine hs.drop fun s' hs' => ?_
    exact ((agrees_textBlock hs'.follows (by omega)).mono fun _ _ => hfollows).map
  case comment body buffered =>
    have hlt := htake nofun
    refine hs.drop fun s' hs' => ?_
    exact ((ih fuel (Nat.le_refl _)).comment _ hs'.follows (by omega)).map
  case code expression buffered =>
    have hlt := htake nofun
    refine hs.drop fun s' hs' => ?_
    exact ((ih fuel (Nat.le_refl _)).code _ hs'.follows (by omega)).map
  case attributes raw as | newline =>
    have hline : s.line = c.take.line := hs.follows.line_eq.trans hs.line
    dsimp only
    rw [Grammar.line_bind, hline]
    exact agrees_error rfl

theorem tracks (fuel : Nat) : Tracks fuel := by
  induction fuel using Nat.strongRecOn with
  | _ fuel ih =>
    cases fuel with
    -- No function has enough fuel here: each bound is above 0.
    | zero => constructor <;> (intros; omega)
    | succ fuel =>
      have ih' : Tracks fuel := ih fuel (Nat.lt_succ_self _)
      exact
        { node := Tracks.node_succ fun fuel' h => ih fuel' (Nat.lt_succ_of_le h)
          tag := fun e => ih'.tag_succ e
          code := fun head => ih'.code_succ head
          comment := fun head => ih'.comment_succ head
          block := ih'.block_succ
          nodes := ih'.nodes_succ }

theorem Grammar.document_succ (fuel : Nat) :
    document (fuel + 1) = peek >>= fun l =>
      if l.kind = .eos then pure []
      else if l.kind = .newline then drop >>= fun _ => document fuel
      else node fuel >>= fun first => document fuel >>= fun others =>
        pure (first.toList ++ others) := by
  rw [document]
  congr 1
  funext l
  cases l.kind <;> rfl

theorem agrees_document (hs : s.Follows c) (hfuel : 5 * c.left + 5 ≤ fuel) :
    Agrees Stream.Sees (Grammar.document fuel s) (Reading.document c) := by
  induction fuel generalizing s c with
  | zero => omega
  | succ fuel ih =>
    rw [Grammar.document_succ, Reading.document]
    refine hs.look fun s' c' hle hsees => ?_
    split
    · exact agrees_give [] hsees
    · next heos =>
      have hlt : c'.take.left < c'.left := Cursor.left_take_lt heos
      split
      · refine hsees.drop fun s'' hs'' => Agrees.widen ?_ c'.left_take_le
        exact ih hs''.follows (by omega)
      · refine Agrees.widen ?_ c'.left_take_le
        refine ((tracks fuel).node hsees (by omega)).bind fun first s₂ c₂ hle₂ hs₂ => ?_
        exact (ih hs₂ (by omega)).map

end

/-! ### Templates -/

/-- A tape is no longer than the bound on what is left to scan, and one shorter if it fails, as it
does not come to the end then. -/
theorem Scanner.length_tape_le (s : Scanner) : s.tape.scans.length ≤ s.size + 1 ∧
    ∀ e, s.tape.failure = some e → s.tape.scans.length ≤ s.size := by
  induction s using tape_induction with
  | error s e s' h =>
    rw [tape_of_error h]
    exact ⟨Nat.zero_le _, fun _ _ => Nat.zero_le _⟩
  | eos s l s' h hl =>
    rw [tape_of_eos h hl]
    exact ⟨Nat.le_add_left _ _, nofun⟩
  | step s l s' h hl ih =>
    have hlt := size_lt_of_next h hl
    rw [tape_of_ok h hl, Tape.scans_cons, List.length_cons]
    refine ⟨by omega, fun e he => ?_⟩
    have hle := ih.2 e he
    omega

/-- The cursor at the start of a tape. -/
def Reading.Cursor.ofTape (tape : Tape) : Cursor where
  rest := tape.lexemes
  failure := tape.failure

/-- Reading a template from a stream is reading it from the tape of all its lexemes. -/
theorem parse_eq_read (layout : Layout) (source : String) :
    parse layout source = Reading.read (.ofTape (Scanner.ofSource layout source).tape) := by
  let s := Stream.ofSource layout source
  let c := Cursor.ofTape (Scanner.ofSource layout source).tape
  have hs : s.Stands c :=
    ⟨rfl, ⟨Scanner.orderly_of_nil rfl, rfl, rfl, .inl rfl⟩⟩
  -- The fuel that is given covers the whole tape.
  have hleft : c.left ≤ s.size + 1 := by
    have hle := (Scanner.ofSource layout source).length_tape_le.1
    simpa [c, s, Cursor.left, Cursor.ofTape, Tape.lexemes, Stream.size, Stream.ofSource] using hle
  have hagrees : Agrees Stream.Sees (Grammar.document (Grammar.fuelFor s) s) (Reading.document c) :=
    agrees_document hs.follows (by unfold Grammar.fuelFor; omega)
  show Block.ofStream s = Reading.read c
  unfold Block.ofStream Reading.read
  obtain ⟨e, hrun, hdocument⟩ | ⟨children, s', c', hrun, hdocument, -⟩ := hagrees.cases
  · rw [hrun, hdocument]
  · rw [hrun, hdocument]
    rfl

end Offside
