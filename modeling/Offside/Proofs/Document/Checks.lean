import Offside.Proofs.Document.Audit
import Offside.Proofs.Document.Shape

/-!
# Checks that never fail, and reading that always ends

Reading with checks (`Audit`) and without (`Grammar`) comes to the same, whatever waits in
the stream. `Comes` relates the two, and the theorems about it follow the functions one by
one. A routine is entered only when the lexeme it needs was looked at, and what was looked
at is what is taken, so of all checks only those for a text that is missing can fail
(`Fault.Possible`).

The ledger stays in order on the way, and each lexeme that is taken or put back makes it
lighter. So the two may be given any amounts of fuel that are enough for the weight of the
ledger (`Audited`): reading ends, and more fuel makes no difference.

* `reading_ends_on_any_queue`: for streams with any lexemes put into them.
* `parse_faults_intended`: for templates, in which no newline stands where a node starts,
  since all errors of templates are known (`intended_of_parse`).
-/

set_option autoImplicit false

namespace Offside

/-! ### Results -/

/-- The faults that reading is meant to find: what is wrong with the template, a filter, a pipe
or verbatim code without a text, and tokens of certain kinds that start no node. -/
inductive Fault.Intended (strays : List Token.Kind) : Fault → Prop
  | scan (error : ScanError) : Intended strays (.scan error)
  | content (host found : Token.Kind) (line : Nat) (hhost : host ∈ [.filter, .pipe, .code])
      (hfound : Reading.isTextual found = false) :
    Intended strays (.unexpected (.content host) found line)
  | unknown (found : Token.Kind) (line : Nat) (hfound : found ∈ strays) :
    Intended strays (.unknown found line)

/-- The faults that reading any stream can come to. -/
abbrev Fault.Possible : Fault → Prop :=
  Intended [.attributes, .newline]

section

variable {α β : Type} {P Q : α → Ledger → Prop} {R : β → Ledger → Prop} {L : Ledger}

/-- Reading with checks and without come to the same: a value of some sort, or an error that
a possible fault is reported as. -/
def Comes (x : EStateM.Result Fault Ledger α) (y : Except ParseError (α × Stream))
    (Q : α → Ledger → Prop) : Prop :=
  match x with
  | .ok a L => y = .ok (a, L.stream) ∧ Q a L
  | .error f L => y = .error f.error ∧ f.Possible ∧ ∃ behindTag, L.Kept behindTag

theorem comes_pure {a : α} (h : Q a L) :
    Comes ((pure a : Audit α) L) ((pure a : Grammar α) L.stream) Q :=
  ⟨rfl, h⟩

theorem Comes.mono {x : EStateM.Result Fault Ledger α} {y : Except ParseError (α × Stream)}
    (h : Comes x y P) (hPQ : ∀ a L, P a L → Q a L) : Comes x y Q := by
  cases x with
  | ok a L => exact ⟨h.1, hPQ a L h.2⟩
  | error f L => exact h

theorem Comes.unique {x : EStateM.Result Fault Ledger α} {y y' : Except ParseError (α × Stream)}
    (h : Comes x y P) (h' : Comes x y' Q) : y = y' := by
  cases x with
  | ok a L => exact h.1.trans h'.1.symm
  | error f L => exact h.1.trans h'.1.symm

theorem Comes.bind {m : Audit α} {m' : Grammar α} {f : α → Audit β} {g : α → Grammar β}
    (h : Comes (m L) (m' L.stream) Q) (hf : ∀ a L', Q a L' → Comes (f a L') (g a L'.stream) R) :
    Comes ((m >>= f) L) ((m' >>= g) L.stream) R := by
  have hrun' : (m' >>= g) L.stream = m' L.stream >>= fun (a, s) => g a s := rfl
  rw [hrun']
  cases hm : m L with
  | ok a L' =>
    rw [hm] at h
    rw [Audit.bind_of_ok hm, h.1]
    exact hf a L' h.2
  | error e L' =>
    rw [hm] at h
    rw [Audit.bind_of_error hm, h.1]
    exact ⟨rfl, h.2⟩

theorem Comes.map {m : Audit α} {m' : Grammar α} {f : α → β} (h : Comes (m L) (m' L.stream) Q)
    (hf : ∀ a L', Q a L' → R (f a) L') :
    Comes ((m >>= fun a => pure (f a)) L) ((m' >>= fun a => pure (f a)) L.stream) R :=
  h.bind fun a L' ha => comes_pure (hf a L' ha)

variable {behindTag : Bool} {x : Slip}

theorem comes_peek {f : Lexeme → Audit β} {g : Lexeme → Grammar β} (h : L.Kept behindTag)
    (hf : ∀ x L', L'.Kept behindTag → L'.Shows x → L'.weight ≤ L.weight →
      (∀ y, L.Shows y → y = x) → Comes (f x.lexeme L') (g x.lexeme L'.stream) R) :
    Comes ((Audit.peek >>= f) L) ((Grammar.peek >>= g) L.stream) R := by
  have hpeek : Comes (Audit.peek L) (Grammar.peek L.stream) fun l L' => ∃ x, L'.Kept behindTag ∧
      L'.Shows x ∧ L'.weight ≤ L.weight ∧ (∀ y, L.Shows y → y = x) ∧ x.lexeme = l := by
    obtain ⟨e, L', hpeek, hpeek', hL'⟩ | ⟨x, L', hpeek, hpeek', hL'⟩ := h.peek
    · rw [hpeek, hpeek']
      exact ⟨rfl, .scan e, behindTag, hL'⟩
    · rw [hpeek, hpeek']
      obtain ⟨hkept, hx, hle, hunique⟩ := hL'
      exact ⟨rfl, x, hkept, hx, hle, hunique, rfl⟩
  refine hpeek.bind fun l L' ⟨x, hL', hx, hle, hunique, hl⟩ => ?_
  rw [← hl]
  exact hf x L' hL' hx hle hunique

end

/-! ### Runs of lexemes -/

open Ledger

variable {L : Ledger} {behindTag : Bool} {x : Slip} {fuel fuel' : Nat}

/-- A loop over lexemes of certain kinds takes a run of them. -/
theorem comes_run {β : Type} (loop : Nat → β → Grammar β) {p : Token.Kind → Bool}
    (f : β → Lexeme → β) (b : β) (heos : p .eos = false) (htag : p .tag = false)
    (hloop : ∀ fuel b, loop (fuel + 1) b = Grammar.peek >>= fun l =>
      if p l.kind then Grammar.drop >>= fun _ => loop fuel (f b l) else pure b)
    (h : L.Kept behindTag) (hfuel : L.weight < fuel) (hfuel' : L.weight < fuel') :
    Comes (Audit.run p f fuel b L) (loop fuel' b L.stream) fun _ L' =>
      L'.Kept behindTag ∧ L'.weight ≤ L.weight ∧ ∃ x, L'.Shows x ∧ p x.kind = false := by
  -- No tag is in the run, so at most its first lexeme was put back.
  induction fuel generalizing fuel' b L behindTag with
  | zero => exact absurd hfuel (Nat.not_lt_zero _)
  | succ fuel ih =>
    obtain ⟨fuel', rfl⟩ : ∃ k, fuel' = k + 1 := ⟨fuel' - 1, by omega⟩
    rw [Audit.run, hloop]
    refine comes_peek h fun x L' hL' hx hle _ => ?_
    cases hp : p x.kind with
    | false => exact comes_pure ⟨hL', hle, x, hx, hp⟩
    | true =>
      have hne : ∀ {kind : Token.Kind}, p kind = false → x.kind ≠ kind := by
        rintro kind hkind rfl
        rw [hp] at hkind
        cases hkind
      have hlt := weight_tail_lt hx (hne heos)
      have htail := hL'.tail_of_ne hx (hne htag)
      rw [if_pos rfl, if_pos rfl, Audit.bind_of_ok (hx.take_eq hL'), hx.grammar_drop_bind]
      refine (ih _ htail (by omega) (by omega)).mono ?_
      rintro b' L'' ⟨hL'', hle'', hshows⟩
      exact ⟨hL''.of_false _, by omega, hshows⟩

/-- A ledger in order in which no more is left to do. -/
structure Ledger.Reaches (L L' : Ledger) : Prop where
  kept : L'.Kept false
  le : L'.weight ≤ L.weight

theorem Ledger.Reaches.trans {L' L'' : Ledger} (h : L.Reaches L') (h' : L'.Reaches L'') :
    L.Reaches L'' :=
  ⟨h'.kept, h'.le.trans h.le⟩

theorem comes_skipNewlines (h : L.Kept false) (hfuel : L.weight < fuel)
    (hfuel' : L.weight < fuel') :
    Comes (Audit.skipNewlines fuel L) (Grammar.skipNewlines fuel' L.stream) fun _ L' =>
      L.Reaches L' ∧ ∃ x, L'.Shows x := by
  refine (comes_run (fun fuel _ => Grammar.skipNewlines fuel) (fun _ _ => ()) () rfl rfl
    skipNewlines_succ h hfuel hfuel').mono ?_
  rintro _ L' ⟨hL', hle, x, hx, -⟩
  exact ⟨⟨hL', hle⟩, x, hx⟩

/-- Behind a tag all shorthands are taken, also one that was put back. -/
theorem comes_attributes (e : Element) (h : L.Kept true) (hfuel : L.weight < fuel)
    (hfuel' : L.weight < fuel') :
    Comes (Audit.attributes fuel e L) (Grammar.attributes fuel' e L.stream) fun _ => L.Reaches := by
  refine (comes_run Grammar.attributes Reading.mark e rfl rfl attributes_succ h hfuel
    hfuel').mono ?_
  rintro e' L' ⟨hL', hle, x, hx, hmark⟩
  refine ⟨hL'.detach hx ?_, hle⟩
  revert hmark
  cases x.kind <;> decide

theorem comes_textLines (text : Text) (h : L.Kept false) (hfuel : L.weight < fuel)
    (hfuel' : L.weight < fuel') :
    Comes (Audit.textLines fuel text L) (Grammar.textLines fuel' text L.stream)
      fun _ => L.Reaches :=
  (comes_run Grammar.textLines Reading.addTo text rfl rfl textLines_succ h hfuel hfuel').mono
    fun _ _ h => ⟨h.1, h.2.1⟩

theorem Grammar.textBlock_eq (fuel : Nat) (s : Stream) :
    textBlock fuel s = (peek >>= fun l =>
      if Reading.isTextual l.kind then
        drop >>= fun _ => textLines fuel (Reading.addTo { line := s.line } l)
      else throw (.unexpectedToken .indent l.kind l.line)) s := by
  rw [textBlock, line_bind]
  refine congrArg (fun k => (peek >>= k) s) (funext fun l => ?_)
  obtain ⟨token, line⟩ := l
  cases token <;> rfl

/-- The text of a region is missing only where the region is opened by a token that needs one,
and where nothing else was seen to be there. -/
theorem Ledger.Shows.comes_content {host : Token.Kind} (text : Text) (hx : L.Shows x)
    (h : L.Kept false) (hhost : host ∈ [.filter, .pipe, .code] ∨ Reading.isTextual x.kind = true)
    (hfuel : L.weight ≤ fuel) (hfuel' : L.weight ≤ fuel') :
    Comes
      ((if x.kind = .text then
        Audit.take >>= fun y => Audit.textLines fuel (Reading.addTo text y.lexeme)
      else Audit.expect (.content host) >>= fun _ => Audit.textLines fuel text) L)
      ((if Reading.isTextual x.kind then
        Grammar.drop >>= fun _ => Grammar.textLines fuel' (Reading.addTo text x.lexeme)
      else throw (.unexpectedToken .indent x.kind x.lexeme.line)) L.stream)
      fun _ => L.Reaches := by
  -- What is taken for the text leaves less to do.
  have hlines : ∀ {kind : Token.Kind} (text : Text), x.kind = kind → kind ≠ .tag → kind ≠ .eos →
      Comes (Audit.textLines fuel text L.tail) (Grammar.textLines fuel' text L.tail.stream)
        fun _ => L.Reaches := by
    rintro kind text rfl htag heos
    have hlt := weight_tail_lt hx heos
    refine (comes_textLines text (h.tail_of_ne hx htag) (by omega) (by omega)).mono ?_
    exact fun _ L' hL' => ⟨hL'.kept, hL'.le.trans hlt.le⟩
  by_cases htext : x.kind = .text
  · have htextual : Reading.isTextual x.kind = true := by rw [htext]; rfl
    rw [if_pos htext, if_pos htextual, Audit.bind_of_ok (hx.take_eq h), hx.grammar_drop_bind]
    exact hlines _ htext (by decide) (by decide)
  · rw [if_neg htext]
    by_cases hindent : x.kind = .indent
    · -- The indent is taken by a check here, and as a lexeme without text there.
      have htextual : Reading.isTextual x.kind = true := by rw [hindent]; rfl
      have hadd : Reading.addTo text x.lexeme = text := by
        unfold Reading.addTo
        split
        · next value htoken => exact absurd (congrArg Token.kind htoken) htext
        · rfl
      have hexpect : Audit.expect (.content host) L = .ok x.lexeme.line L.tail :=
        hx.expect_eq h hindent
      rw [if_pos htextual, Audit.bind_of_ok hexpect, hx.grammar_drop_bind, hadd]
      exact hlines _ hindent (by decide) (by decide)
    · -- This is the only check of all that can fail.
      have htextual : Reading.isTextual x.kind = false := by
        revert htext hindent
        cases x.kind <;> decide
      have hexpect : Audit.expect (.content host) L =
          .error (.unexpected (.content host) x.kind x.lexeme.line) L.tail :=
        hx.expect_error h hindent
      rw [htextual, Audit.bind_of_error hexpect]
      have hhost := hhost.resolve_right fun htrue => by
        rw [htextual] at htrue
        cases htrue
      exact ⟨rfl, .content host _ _ hhost htextual, _, h.tail hx⟩

theorem comes_textBlock {host : Token.Kind} (hhost : host ∈ [.filter, .pipe, .code])
    (h : L.Kept false) (hfuel : L.weight ≤ fuel) (hfuel' : L.weight ≤ fuel') :
    Comes (Audit.textBlock host fuel L) (Grammar.textBlock fuel' L.stream) fun _ => L.Reaches := by
  rw [Audit.textBlock, Audit.line_bind, Grammar.textBlock_eq]
  refine comes_peek h fun x L' hL' hx hle _ => ?_
  refine (hx.comes_content _ hL' (.inl hhost) (by omega) (by omega)).mono fun _ L'' => ?_
  exact Reaches.trans ⟨hL', hle⟩

/-- Where a text was seen to start, none is missing. -/
theorem Ledger.Shows.comes_textBlock {host : Token.Kind} (hx : L.Shows x) (h : L.Kept false)
    (htextual : Reading.isTextual x.kind = true) (hfuel : L.weight ≤ fuel)
    (hfuel' : L.weight ≤ fuel') :
    Comes (Audit.textBlock host fuel L) (Grammar.textBlock fuel' L.stream) fun _ => L.Reaches := by
  rw [Audit.textBlock, Audit.line_bind, Grammar.textBlock_eq, hx.grammar_peek_bind,
    Audit.bind_of_ok (hx.peek_eq h)]
  exact hx.comes_content _ h (.inr htextual) hfuel hfuel'

/-! ### Nodes and blocks -/

theorem Ledger.Shows.text_eq {value : String} (hx : L.Shows x) (h : L.Kept false)
    (htoken : x.lexeme.token = .text value) (trim : Bool) :
    Audit.text trim L =
      .ok (.ofValue (if trim then Character.trimLeadingSpaces value else value) x.lexeme.line)
        L.tail := by
  rw [Audit.text, Audit.bind_of_ok (hx.accept_eq h (by rw [htoken]))]
  rfl

theorem comes_filter {name : String} (hx : L.Shows x) (h : L.Kept false)
    (htoken : x.lexeme.token = .filter name) (hfuel : L.weight ≤ fuel) (hfuel' : L.weight ≤ fuel') :
    Comes (Audit.filter fuel L)
      ((Grammar.drop >>= fun _ => Grammar.filter fuel' name x.lexeme.line) L.stream)
      fun _ => L.tail.Reaches := by
  have hkind : x.kind = .filter := congrArg Token.kind htoken
  have hle := weight_tail_le hx
  rw [Audit.filter, Audit.bind_of_ok (hx.accept_eq h (by rw [htoken])), hx.grammar_drop_bind,
    Grammar.filter, Audit.filterAttributes]
  simp only [bind_assoc]
  refine comes_peek (h.tail_of_ne hx (by rw [hkind]; decide)) fun y L' hL' hy hle' _ => ?_
  have htext : ∀ {L' : Ledger}, L.tail.Reaches L' →
      Comes (Audit.textBlock .filter fuel L') (Grammar.textBlock fuel' L'.stream)
        fun _ => L.tail.Reaches := by
    intro L' hL'
    have hle' := hL'.le
    exact (comes_textBlock (by decide) hL'.kept (by omega) (by omega)).mono fun _ _ => hL'.trans
  cases hy' : y.lexeme.token
  case attributes raw as =>
    have hkind' : y.kind = .attributes := congrArg Token.kind hy'
    have htail : L.tail.Reaches L'.tail :=
      ⟨hL'.tail_of_ne hy (by rw [hkind']; decide), (weight_tail_le hy).trans hle'⟩
    dsimp only
    rw [if_pos hkind', bind_assoc, hy.grammar_drop_bind, Audit.bind_of_ok (hy.take_eq hL'), hy']
    exact (htext htail).map fun _ _ h => h
  all_goals
    rw [if_neg (by simp [Lexeme.kind, hy', Token.kind])]
    exact (htext ⟨hL', hle'⟩).map fun _ _ h => h

theorem comes_pipe (hx : L.Shows x) (h : L.Kept false) (hkind : x.kind = .pipe)
    (hfuel : L.weight ≤ fuel) (hfuel' : L.weight ≤ fuel') :
    Comes (Audit.pipe fuel L) ((Grammar.drop >>= fun _ => Grammar.textBlock fuel') L.stream)
      fun _ => L.tail.Reaches := by
  have hle := weight_tail_le hx
  have hexpect : Audit.expect .pipe L = .ok x.lexeme.line L.tail := hx.expect_eq h hkind
  rw [Audit.pipe, Audit.bind_of_ok hexpect, hx.grammar_drop_bind]
  exact comes_textBlock (by decide) (h.tail_of_ne hx (by rw [hkind]; decide)) (by omega) (by omega)

/-- With less than so much left to do, and with fuel for it, reading nodes with checks and
without comes to the same. The two may be given different amounts of fuel. -/
structure Audited (bound : Nat) : Prop where
  block : ∀ {L : Ledger} {x : Slip} {fuel fuel' : Nat}, L.Shows x → L.Kept false →
    x.kind = .indent → L.weight < bound → 2 * L.weight + 1 ≤ fuel → 2 * L.weight + 1 ≤ fuel' →
    Comes (Audit.block fuel L) (Grammar.block fuel' L.stream) fun _ => L.Reaches
  code : ∀ {L : Ledger} {x : Slip} {fuel fuel' : Nat} {expression : String} {buffered : Bool},
    L.Shows x → L.Kept false → x.lexeme.token = .code expression buffered → L.weight < bound →
    2 * L.weight ≤ fuel → 2 * L.weight ≤ fuel' →
    Comes (Audit.code fuel L) ((Grammar.drop >>= fun _ =>
      Grammar.code fuel' (Grammar.statement x.lexeme.line expression buffered)) L.stream)
      fun _ => L.tail.Reaches
  node : ∀ {L : Ledger} {fuel fuel' : Nat}, L.Kept false → L.weight < bound →
    2 * L.weight + 1 ≤ fuel → 2 * L.weight + 1 ≤ fuel' →
    Comes (Audit.node fuel L) (Grammar.node fuel' L.stream) fun _ L' =>
      L.Reaches L' ∧ ∀ x, L.Shows x → x.kind ≠ .eos → L'.weight < L.weight
  nodes : ∀ {L : Ledger} {fuel fuel' : Nat}, L.Kept false → L.weight < bound →
    2 * L.weight + 2 ≤ fuel → 2 * L.weight + 2 ≤ fuel' →
    Comes (Audit.nodes fuel L) (Grammar.nodes fuel' L.stream) fun _ L' =>
      L.Reaches L' ∧ ∃ x, L'.Shows x ∧ (x.kind = .outdent ∨ x.kind = .eos)

section

variable {bound : Nat}

theorem Audited.block_succ (ih : Audited bound) (hx : L.Shows x) (h : L.Kept false)
    (hkind : x.kind = .indent) (hbound : L.weight ≤ bound) (hfuel : 2 * L.weight + 1 ≤ fuel)
    (hfuel' : 2 * L.weight + 1 ≤ fuel') :
    Comes (Audit.block fuel L) (Grammar.block fuel' L.stream) fun _ => L.Reaches := by
  obtain ⟨fuel, rfl⟩ : ∃ k, fuel = k + 1 := ⟨fuel - 1, by omega⟩
  obtain ⟨fuel', rfl⟩ : ∃ k, fuel' = k + 1 := ⟨fuel' - 1, by omega⟩
  have hlt := weight_tail_lt hx (by rw [hkind]; decide)
  have htail := h.tail_of_ne hx (by rw [hkind]; decide)
  have hexpect : Audit.expect .block L = .ok x.lexeme.line L.tail := hx.expect_eq h hkind
  rw [Audit.block, Grammar.block, Audit.bind_of_ok hexpect, hx.grammar_take_bind]
  refine (ih.nodes htail (by omega) (by omega) (by omega)).bind fun children L₁ hL₁ => ?_
  obtain ⟨hL₁, y, hy, hclose⟩ := hL₁
  rw [Audit.bind_of_ok (hy.take_eq hL₁.kept), hy.grammar_drop_bind]
  have hy' : y.kind ≠ .tag := by rcases hclose with hkind | hkind <;> rw [hkind] <;> decide
  have hle := hL₁.le
  have hle' := weight_tail_le hy
  exact comes_pure ⟨hL₁.kept.tail_of_ne hy hy', by omega⟩

/-- An indent opens a block, and anything else none. -/
theorem Ledger.Shows.comes_below {β : Type} {block : Audit Block} {block' : Grammar Block}
    (f : Option Block → β) (hx : L.Shows x) (h : L.Kept false)
    (hblock : x.kind = .indent → Comes (block L) (block' L.stream) fun _ => L.Reaches) :
    Comes ((Audit.below block >>= fun b => pure (f b)) L)
      ((if x.kind = .indent then block' >>= fun b => pure (f (some b)) else pure (f none)) L.stream)
      fun _ => L.Reaches := by
  rw [Audit.below, bind_assoc, Audit.bind_of_ok (hx.peek_eq h)]
  split
  · next hindent =>
    rw [bind_map_left]
    exact (hblock hindent).map fun _ _ h => h
  · exact comes_pure ⟨h, Nat.le_refl _⟩

section

variable (ih : Audited bound)

include ih

theorem Audited.code_succ {expression : String} {buffered : Bool}
    (hx : L.Shows x) (h : L.Kept false) (htoken : x.lexeme.token = .code expression buffered)
    (hbound : L.weight ≤ bound) (hfuel : 2 * L.weight ≤ fuel) (hfuel' : 2 * L.weight ≤ fuel') :
    Comes (Audit.code fuel L) ((Grammar.drop >>= fun _ =>
      Grammar.code fuel' (Grammar.statement x.lexeme.line expression buffered)) L.stream)
      fun _ => L.tail.Reaches := by
  have hkind : x.kind = .code := congrArg Token.kind htoken
  have hlt := weight_tail_lt hx (by rw [hkind]; decide)
  obtain ⟨fuel, rfl⟩ : ∃ k, fuel = k + 1 := ⟨fuel - 1, by omega⟩
  obtain ⟨fuel', rfl⟩ : ∃ k, fuel' = k + 1 := ⟨fuel' - 1, by omega⟩
  have htail := h.tail_of_ne hx (by rw [hkind]; decide)
  rw [Audit.code, Audit.bind_of_ok (hx.accept_eq h (by rw [htoken])), hx.grammar_drop_bind,
    Grammar.code]
  refine (comes_skipNewlines htail (by omega) (by omega)).bind fun _ L₁ hL₁ => ?_
  obtain ⟨hreach, y, hy⟩ := hL₁
  have hle := hreach.le
  rw [hy.grammar_peek_bind]
  by_cases hverbatim : (Grammar.statement x.lexeme.line expression buffered).verbatim = true
  · simp only [if_pos hverbatim, pure_bind]
    have htext : Comes (Audit.textBlock .code fuel L₁) (Grammar.textBlock fuel' L₁.stream)
        fun _ => L₁.Reaches := comes_textBlock (by decide) hreach.kept (by omega) (by omega)
    exact htext.map fun _ _ => hreach.trans
  · simp only [if_neg hverbatim, bind_map_left, pure_bind]
    have hbelow := hy.comes_below (Code.mk (Grammar.statement x.lexeme.line expression buffered))
      hreach.kept fun hindent => ih.block hy hreach.kept hindent (by omega)
        (show _ ≤ fuel by omega) (show _ ≤ fuel' by omega)
    exact hbelow.mono fun _ _ => hreach.trans

theorem Audited.comment_succ {body : String} {buffered : Bool}
    (hx : L.Shows x) (h : L.Kept false) (htoken : x.lexeme.token = .comment body buffered)
    (hbound : L.weight ≤ bound) (hfuel : 2 * L.weight ≤ fuel) (hfuel' : 2 * L.weight ≤ fuel') :
    Comes (Audit.comment fuel L) ((Grammar.drop >>= fun _ => Grammar.comment fuel'
      { line := x.lexeme.line, body := Character.trimSpaces body, buffered }) L.stream)
      fun _ => L.tail.Reaches := by
  have hkind : x.kind = .comment := congrArg Token.kind htoken
  have hlt := weight_tail_lt hx (by rw [hkind]; decide)
  obtain ⟨fuel, rfl⟩ : ∃ k, fuel = k + 1 := ⟨fuel - 1, by omega⟩
  obtain ⟨fuel', rfl⟩ : ∃ k, fuel' = k + 1 := ⟨fuel' - 1, by omega⟩
  have htail := h.tail_of_ne hx (by rw [hkind]; decide)
  rw [Audit.comment, Audit.bind_of_ok (hx.accept_eq h (by rw [htoken])), hx.grammar_drop_bind,
    Grammar.comment]
  refine (comes_skipNewlines htail (by omega) (by omega)).bind fun _ L₁ hL₁ => ?_
  obtain ⟨hreach, y, hy⟩ := hL₁
  have hle := hreach.le
  rw [hy.grammar_peek_bind]
  cases buffered with
  | true =>
    simp only [if_true, bind_map_left, pure_bind]
    have hbelow := hy.comes_below (Comment.mk ⟨x.lexeme.line, Character.trimSpaces body, true⟩)
      hreach.kept fun hindent => ih.block hy hreach.kept hindent (by omega)
        (show _ ≤ fuel by omega) (show _ ≤ fuel' by omega)
    exact hbelow.mono fun _ _ => hreach.trans
  | false =>
    simp only [Bool.false_eq_true, if_false, pure_bind]
    have htext : y.kind = .indent →
        Comes (Audit.textBlock .comment fuel L₁) (Grammar.textBlock fuel' L₁.stream)
          fun _ => L₁.Reaches := fun hindent =>
      hy.comes_textBlock hreach.kept (by rw [hindent]; rfl) (by omega) (by omega)
    have hbelow := hy.comes_below (Comment.mk ⟨x.lexeme.line, Character.trimSpaces body, false⟩)
      hreach.kept fun hindent => (htext hindent).map
        (f := fun text => Block.mk x.lexeme.line [.text text]) fun _ _ h => h
    simp only [bind_assoc, pure_bind] at hbelow
    exact hbelow.mono fun _ _ => hreach.trans

theorem Audited.inline (h : L.Kept false) (hbound : L.weight < bound)
    (hfuel : 2 * L.weight ≤ fuel) (hfuel' : 2 * L.weight ≤ fuel') :
    Comes (Audit.inline (Audit.code fuel) L) (Grammar.inline fuel' L.stream)
      fun _ => L.Reaches := by
  refine comes_peek h fun y L' hL' hy hle _ => ?_
  have htail : y.kind ≠ .tag → L.Reaches L'.tail := fun hne =>
    ⟨hL'.tail_of_ne hy hne, (weight_tail_le hy).trans hle⟩
  cases htoken : y.lexeme.token <;> simp only [Lexeme.kind, htoken, Token.kind] at htail ⊢
  case text value =>
    rw [Audit.bind_of_ok (hy.text_eq hL' htoken true), hy.grammar_drop_bind]
    exact comes_pure (htail (by decide))
  case code expression buffered =>
    rw [← bind_assoc]
    have hcode := ih.code hy hL' htoken (by omega)
      (show _ ≤ fuel by omega) (show _ ≤ fuel' by omega)
    exact hcode.map fun _ _ => (htail (by decide)).trans
  all_goals exact comes_pure ⟨hL', hle⟩

theorem Audited.tagEnd (e : Element) (text : Option Text) (code : Option Code)
    (h : L.Kept false) (hbound : L.weight < bound) (hfuel : 2 * L.weight + 1 ≤ fuel)
    (hfuel' : 2 * L.weight + 1 ≤ fuel') :
    Comes (Audit.tagEnd (Audit.block fuel) fuel e text code L)
      (Grammar.tagEnd fuel' e text code L.stream) fun _ => L.Reaches := by
  refine (comes_skipNewlines h (by omega) (by omega)).bind fun _ L₁ hL₁ => ?_
  obtain ⟨hreach, y, hy⟩ := hL₁
  have hle := hreach.le
  have hend : ∀ text : Option Text, Comes
      ((Audit.peek >>= fun l => if l.kind = .indent then
        Audit.block fuel >>= fun children => pure (Tag.mk e text code children)
        else pure (Tag.mk e text code ⟨e.line, []⟩)) L₁)
      ((Grammar.peek >>= fun l => if l.kind = .indent then
        Grammar.block fuel' >>= fun children => pure (Tag.mk e text code children)
        else pure (Tag.mk e text code ⟨e.line, []⟩)) L₁.stream) fun _ => L.Reaches := by
    intro text
    rw [Audit.bind_of_ok (hy.peek_eq hreach.kept), hy.grammar_peek_bind]
    split
    · next hindent =>
      have hblock := ih.block hy hreach.kept hindent (by omega)
        (show _ ≤ fuel by omega) (show _ ≤ fuel' by omega)
      exact hblock.map fun _ _ => hreach.trans
    · exact comes_pure hreach
  rw [Audit.bind_of_ok (hy.peek_eq hreach.kept), hy.grammar_peek_bind]
  by_cases htext : y.kind = .text
  · simp only [if_pos htext, Audit.line_bind, Grammar.line_bind, pure_bind]
    exact hend _
  · simp only [if_neg htext, pure_bind]
    exact hend text

theorem Audited.tag_succ {name : String} (hx : L.Shows x) (h : L.Kept false)
    (htoken : x.lexeme.token = .tag name) (hbound : L.weight ≤ bound)
    (hfuel : 2 * L.weight ≤ fuel) (hfuel' : 2 * L.weight ≤ fuel') :
    Comes (Audit.tag fuel L)
      ((Grammar.drop >>= fun _ => Grammar.tag fuel' (.ofName name x.lexeme.line)) L.stream)
      fun _ => L.tail.Reaches := by
  have hkind : x.kind = .tag := congrArg Token.kind htoken
  have hlt := weight_tail_lt hx (by rw [hkind]; decide)
  obtain ⟨fuel, rfl⟩ : ∃ k, fuel = k + 1 := ⟨fuel - 1, by omega⟩
  obtain ⟨fuel', rfl⟩ : ∃ k, fuel' = k + 1 := ⟨fuel' - 1, by omega⟩
  -- A shorthand that was put back comes right here.
  have htail : L.tail.Kept true := by
    have htail := h.tail hx
    rwa [decide_eq_true hkind] at htail
  rw [Audit.tag, Audit.bind_of_ok (hx.accept_eq h (by rw [htoken])), hx.grammar_drop_bind,
    Grammar.tag_succ]
  refine (comes_attributes _ htail (by omega) (by omega)).bind fun e L₁ hL₁ => ?_
  have hle₁ := hL₁.le
  refine (ih.inline hL₁.kept (by omega) (by omega) (by omega)).bind fun inline L₂ hL₂ => ?_
  have hle₂ := hL₂.le
  refine (ih.tagEnd e inline.1 inline.2 hL₂.kept (by omega) (by omega) (by omega)).mono ?_
  exact fun _ _ => (hL₁.trans hL₂).trans

theorem Audited.node_succ (h : L.Kept false) (hbound : L.weight ≤ bound)
    (hfuel : 2 * L.weight + 1 ≤ fuel) (hfuel' : 2 * L.weight + 1 ≤ fuel') :
    Comes (Audit.node fuel L) (Grammar.node fuel' L.stream) fun _ L' =>
      L.Reaches L' ∧ ∀ x, L.Shows x → x.kind ≠ .eos → L'.weight < L.weight := by
  obtain ⟨fuel, rfl⟩ : ∃ k, fuel = k + 1 := ⟨fuel - 1, by omega⟩
  obtain ⟨fuel', rfl⟩ : ∃ k, fuel' = k + 1 := ⟨fuel' - 1, by omega⟩
  rw [Audit.node, Grammar.node]
  refine comes_peek h fun x L₁ hL₁ hx hle hunique => ?_
  -- Behind the lexeme that was looked at, less is left to do.
  have hpost : ∀ {L' : Ledger}, L₁.tail.Reaches L' →
      L.Reaches L' ∧ ∀ x, L.Shows x → x.kind ≠ .eos → L'.weight < L.weight := by
    intro L' hL'
    have hle' := hL'.le
    have htail := weight_tail_le hx
    refine ⟨⟨hL'.kept, by omega⟩, fun y hy heos => ?_⟩
    obtain rfl := hunique y hy
    have hlt := weight_tail_lt hx heos
    omega
  have htake : x.kind ≠ .tag → L₁.tail.Reaches L₁.tail := fun hne =>
    ⟨hL₁.tail_of_ne hx hne, Nat.le_refl _⟩
  cases htoken : x.lexeme.token <;> simp only [Lexeme.kind, htoken, Token.kind] at htake ⊢
  case tag name =>
    rw [← bind_assoc]
    exact (ih.tag_succ hx hL₁ htoken (by omega) (by omega) (by omega)).map fun _ _ => hpost
  case code expression buffered =>
    rw [← bind_assoc]
    exact (ih.code_succ hx hL₁ htoken (by omega) (by omega) (by omega)).map fun _ _ => hpost
  case comment body buffered =>
    rw [← bind_assoc]
    exact (ih.comment_succ hx hL₁ htoken (by omega) (by omega) (by omega)).map fun _ _ => hpost
  case filter name =>
    rw [← bind_assoc]
    exact (comes_filter hx hL₁ htoken (by omega) (by omega)).map fun _ _ => hpost
  case pipe =>
    rw [← bind_assoc]
    exact (comes_pipe hx hL₁ (congrArg Token.kind htoken) (by omega) (by omega)).map
      fun _ _ => hpost
  case doctype version =>
    have hdoctype : Audit.doctype L₁ = .ok { line := x.lexeme.line, version } L₁.tail := by
      rw [Audit.doctype, Audit.bind_of_ok (hx.accept_eq hL₁ (by rw [htoken]))]
      rfl
    rw [Audit.bind_of_ok hdoctype, hx.grammar_drop_bind]
    exact comes_pure (hpost (htake (by decide)))
  case text value =>
    rw [Audit.bind_of_ok (hx.text_eq hL₁ htoken false), hx.grammar_drop_bind]
    exact comes_pure (hpost (htake (by decide)))
  case idName name | className name =>
    -- What is put back weighs less than the shorthand did, so the next node is in the bound.
    have hshort : x.kind.isShorthand = true := by
      show x.lexeme.token.kind.isShorthand = true
      rw [htoken]
      rfl
    have hweight := weight_returned hx (hL₁.origin_eq_none hx) hshort
    have hkept := hL₁.returned hx hshort
    rw [hx.putBack_bind hL₁, hx.grammar_putBack_bind]
    refine (ih.node hkept (by omega) (by omega) (by omega)).mono fun _ L' hL' => ?_
    have hle' := hL'.1.le
    exact ⟨⟨hL'.1.kept, by omega⟩, fun _ _ _ => by omega⟩
  case indent | outdent | eos =>
    rw [Audit.bind_of_ok (hx.take_eq hL₁), hx.grammar_drop_bind]
    exact comes_pure (hpost (htake (by decide)))
  case attributes raw as | newline =>
    rw [Audit.line_bind, Grammar.line_bind]
    exact ⟨rfl, .unknown _ _ (by decide), _, hL₁⟩

theorem Audited.nodes_succ (h : L.Kept false) (hbound : L.weight ≤ bound)
    (hfuel : 2 * L.weight + 2 ≤ fuel) (hfuel' : 2 * L.weight + 2 ≤ fuel') :
    Comes (Audit.nodes fuel L) (Grammar.nodes fuel' L.stream) fun _ L' =>
      L.Reaches L' ∧ ∃ x, L'.Shows x ∧ (x.kind = .outdent ∨ x.kind = .eos) := by
  obtain ⟨fuel, rfl⟩ : ∃ k, fuel = k + 1 := ⟨fuel - 1, by omega⟩
  obtain ⟨fuel', rfl⟩ : ∃ k, fuel' = k + 1 := ⟨fuel' - 1, by omega⟩
  rw [Audit.nodes, Grammar.nodes_succ]
  refine comes_peek h fun x L₁ hL₁ hx hle _ => ?_
  split
  · next hclose => exact comes_pure ⟨⟨hL₁, hle⟩, x, hx, hclose⟩
  · next hclose =>
    have heos : x.kind ≠ .eos := fun heos => hclose (.inr heos)
    split
    · next hnewline =>
      have hlt := weight_tail_lt hx heos
      have hreach : L.Reaches L₁.tail :=
        ⟨hL₁.tail_of_ne hx (by rw [Slip.kind, hnewline]; decide), by omega⟩
      rw [Audit.bind_of_ok (hx.take_eq hL₁), hx.grammar_drop_bind]
      refine (ih.nodes hreach.kept (by omega) (by omega) (by omega)).mono fun _ L' hL' => ?_
      exact ⟨hreach.trans hL'.1, hL'.2⟩
    · -- The node may weigh as much as the bound, but it takes the lexeme that was looked at.
      refine (ih.node_succ hL₁ (by omega) (by omega) (by omega)).bind fun first L₂ hL₂ => ?_
      have hlt := hL₂.2 x hx heos
      have hreach : L.Reaches L₂ := ⟨hL₂.1.kept, by omega⟩
      refine (ih.nodes hreach.kept (by omega) (by omega) (by omega)).map fun _ L' hL' => ?_
      exact ⟨hreach.trans hL'.1, hL'.2⟩

end

theorem audited (bound : Nat) : Audited bound := by
  induction bound with
  -- There is no ledger with less than nothing to do.
  | zero => constructor <;> (intros; omega)
  | succ bound ih =>
    exact
      { block := fun hx h hkind hbound => ih.block_succ hx h hkind (by omega)
        code := fun hx h htoken hbound => ih.code_succ hx h htoken (by omega)
        node := fun h hbound => ih.node_succ h (by omega)
        nodes := fun h hbound => ih.nodes_succ h (by omega) }

end

/-- Reading a document with checks and without comes to the same, with any two amounts of fuel
that are enough. -/
theorem comes_document (h : L.Kept false) (hfuel : 2 * L.weight + 2 ≤ fuel)
    (hfuel' : 2 * L.weight + 2 ≤ fuel') :
    Comes (Audit.document fuel L) (Grammar.document fuel' L.stream) fun _ => L.Reaches := by
  induction fuel generalizing L fuel' with
  | zero => omega
  | succ fuel ih =>
    obtain ⟨fuel', rfl⟩ : ∃ k, fuel' = k + 1 := ⟨fuel' - 1, by omega⟩
    rw [Audit.document, Grammar.document_succ]
    refine comes_peek h fun x L₁ hL₁ hx hle _ => ?_
    split
    · exact comes_pure ⟨hL₁, hle⟩
    · next heos =>
      split
      · next hnewline =>
        have hlt := weight_tail_lt hx heos
        have hreach : L.Reaches L₁.tail :=
          ⟨hL₁.tail_of_ne hx (by rw [Slip.kind, hnewline]; decide), by omega⟩
        rw [Audit.bind_of_ok (hx.take_eq hL₁), hx.grammar_drop_bind]
        exact (ih hreach.kept (by omega) (by omega)).mono fun _ _ => hreach.trans
      · have hnode := (audited (L₁.weight + 1)).node hL₁ (by omega)
          (show _ ≤ fuel by omega) (show _ ≤ fuel' by omega)
        refine hnode.bind fun first L₂ hL₂ => ?_
        have hlt := hL₂.2 x hx heos
        have hreach : L.Reaches L₂ := ⟨hL₂.1.kept, by omega⟩
        exact (ih hreach.kept (by omega) (by omega)).map fun _ _ => hreach.trans

/-! ### Streams -/

/-- Reading a stream with checks and without comes to the same. -/
theorem comes_ofStream (s : Stream) (hfuel : Grammar.fuelFor s ≤ fuel)
    (hfuel' : Grammar.fuelFor s ≤ fuel') :
    Comes (Audit.document fuel (.ofStream s)) (Grammar.document fuel' s)
      fun _ => (ofStream s).Reaches := by
  have hle := weight_ofStream_le s
  exact comes_document (kept_ofStream s) (by omega) (by omega)

/-- Fuel beyond what a stream is given makes no difference. -/
theorem Grammar.document_eq_of_le (s : Stream) (hfuel : fuelFor s ≤ fuel) :
    document fuel s = document (fuelFor s) s := by
  have hcomes := comes_ofStream s (Nat.le_refl _) hfuel
  exact hcomes.unique (comes_ofStream s (Nat.le_refl _) (Nat.le_refl _))

/-- What reading a stream with checks says about reading it without: the same document, or
the error of a possible fault, with a ledger in order. -/
theorem Audit.ofStream_spec (s : Stream) :
    (ofStream s).1.mapError Fault.error = Block.ofStream s ∧
      (∀ f, (ofStream s).1 = .error f → f.Possible) ∧
      ∃ behindTag, (ofStream s).2.Kept behindTag := by
  have hcomes := comes_ofStream s (Nat.le_refl _) (Nat.le_refl _)
  unfold Comes at hcomes
  unfold ofStream Block.ofStream
  cases haudit : document (Grammar.fuelFor s) (.ofStream s) with
  | ok children L =>
    rw [haudit] at hcomes
    rw [hcomes.1]
    refine ⟨rfl, fun f hf => ?_, false, hcomes.2.kept⟩
    cases hf
  | error f L =>
    rw [haudit] at hcomes
    rw [hcomes.1]
    refine ⟨rfl, fun f' hf => ?_, hcomes.2.2⟩
    obtain rfl := Except.error.inj hf
    exact hcomes.2.1

theorem Block.ofStream_ne_outOfFuel (s : Stream) : ofStream s ≠ .error .outOfFuel := by
  obtain ⟨herror, hpossible, -⟩ := Audit.ofStream_spec s
  rw [← herror]
  cases haudit : (Audit.ofStream s).1 with
  | ok root =>
    intro h
    cases h
  | error f =>
    intro h
    obtain h := Except.error.inj h
    cases hpossible f haudit <;> cases h

/-- Reading ends on every queue: whatever tokens are put into the stream of a template, in any
order, there is a document or an error, and more fuel makes no difference. Reading with
checks comes to the same, and in its ledger no lexeme was put back twice. -/
theorem reading_ends_on_any_queue (layout : Layout) (source : String) (queue : List Lexeme) :
    let s := queue.foldl Stream.defer (.ofSource layout source)
    Block.ofStream s ≠ .error .outOfFuel ∧
      (∀ fuel, Grammar.fuelFor s ≤ fuel →
        Grammar.document fuel s = Grammar.document (Grammar.fuelFor s) s) ∧
      (Audit.ofStream s).1.mapError Fault.error = Block.ofStream s ∧
      (Audit.ofStream s).2.Once := by
  intro s
  obtain ⟨herror, -, behindTag, hkept⟩ := Audit.ofStream_spec s
  exact ⟨Block.ofStream_ne_outOfFuel s, fun _ => Grammar.document_eq_of_le s, herror, hkept.once⟩

/-- Two shorthands, an indent between them and an end of the template behind them, in front of
the tag `p`. Both shorthands are put back, the indent and the end give no nodes, and a `div`
is read for each shorthand. -/
theorem reading_ends_on_any_queue_shorthands :
    let queue : List Lexeme :=
      [⟨.idName "a", 1⟩, ⟨.indent, 1⟩, ⟨.className "b", 1⟩, ⟨.eos, 1⟩, ⟨.text "c", 1⟩]
    let s := queue.foldl Stream.defer (.ofSource {} "p")
    (Audit.ofStream s).2.slips.map (·.origin) =
        [none, none, none, none, none, none, some 0, none, some 2, none, none] ∧
      Block.ofStream s ≠ .error .outOfFuel ∧ (Audit.ofStream s).2.Once := by
  intro queue s
  obtain ⟨hends, -, -, honce⟩ := reading_ends_on_any_queue {} "p" queue
  exact ⟨by decide +kernel, hends, honce⟩

/-! ### Templates -/

/-- A possible fault that is reported as an error of a template is no newline. -/
theorem Fault.Possible.intended {f : Fault} (h : f.Possible) (herror : Reading.Intended f.error) :
    f.Intended [.attributes] := by
  cases h with
  | scan error => exact .scan error
  | content host found line hhost hfound => exact .content host found line hhost hfound
  | unknown found line hfound =>
    -- Of the tokens that start no node, only an attribute list is an error of templates.
    cases herror
    exact .unknown .attributes line (by decide)

/-- The errors of templates are those that are meant. Reading a template with checks comes to
the same document or error, and of all faults only those of `Fault.Intended` arise: no
routine is entered on a lexeme of another kind, and no newline stands where a node starts.
So an unexpected token stands where an indent was needed, and a token that starts no node
is an attribute list. -/
theorem parse_faults_intended (layout : Layout) (source : String) :
    (Audit.ofStream (.ofSource layout source)).1.mapError Fault.error = parse layout source ∧
      (∀ f, (Audit.ofStream (.ofSource layout source)).1 = .error f →
        f.Intended [.attributes]) ∧
      (∀ expected found line,
        parse layout source = .error (.unexpectedToken expected found line) → expected = .indent) ∧
      ∀ found line, parse layout source = .error (.unknownToken found line) →
        found = .attributes := by
  obtain ⟨herror, hpossible, -⟩ := Audit.ofStream_spec (.ofSource layout source)
  refine ⟨herror, fun f hf => ?_, fun expected found line h => ?_, fun found line h => ?_⟩
  · -- What is left to rule out is a newline, and the error that it would give is known.
    have hparse : parse layout source = .error f.error := by
      rw [parse, ← herror, hf]
      rfl
    exact (hpossible f hf).intended (intended_of_parse hparse)
  · cases intended_of_parse h
    rfl
  · cases intended_of_parse h
    rfl

/-- A filter without a text, and an attribute list at the start of a line. -/
theorem parse_faults_intended_lines :
    ((Audit.ofStream (.ofSource {} ":css\np")).1 =
        .error (.unexpected (.content .filter) .newline 2) ∧
      (Fault.unexpected (.content .filter) .newline 2).Intended [.attributes]) ∧
    (Audit.ofStream (.ofSource {} "p\n(a)")).1 = .error (.unknown .attributes 2) ∧
      (Fault.unknown .attributes 2).Intended [.attributes] := by
  have herror : ∀ {x : Except Fault Block} {f : Fault},
      x.map (·.children.length) = .error f → x = .error f := by
    intro x f h
    cases x with
    | ok root => cases h
    | error f' => rw [Except.error.inj h]
  have hfilter : (Audit.ofStream (.ofSource {} ":css\np")).1 =
      .error (.unexpected (.content .filter) .newline 2) := herror (by decide +kernel)
  have hattributes : (Audit.ofStream (.ofSource {} "p\n(a)")).1 = .error (.unknown .attributes 2) :=
    herror (by decide +kernel)
  exact ⟨⟨hfilter, (parse_faults_intended _ _).2.1 _ hfilter⟩,
    hattributes, (parse_faults_intended _ _).2.1 _ hattributes⟩

/-- In a queue that is made by hand, a newline can stand where a node starts: right behind a
shorthand, which is put back behind it. -/
example : (Block.ofStream (([⟨.idName "a", 1⟩, ⟨.newline, 1⟩] : List Lexeme).foldl Stream.defer
    (.ofSource {} ""))).map (·.line) = .error (.unknownToken .newline 1) := by decide +kernel

end Offside
