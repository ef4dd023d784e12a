import Offside.Proofs.Attribute.Written

/-!
# The parenthesis that matches

An attribute list ends at the parenthesis that matches the one it starts with. `Matched` says
which one that is, without a search: it stands on the first line and outside of quotes, the
parentheses outside of quotes balance up to it, and more are opened than closed in front of it.

* `outcome_readClosing_iff`: the search finds the end of a text exactly if that text encloses
  what the search is in the middle of (`Quoting.Encloses`). The search has a quote and a depth
  as its state, and both are general there.
* `closingOffset?_eq_some_iff`: so the search from the start of a list finds the match.
* `readAttributes_eq`: the list that is read as a token ends there, too.
-/

set_option autoImplicit false

namespace Offside

open Offside.Character

namespace Attribute

/-! ### Outside of quotes -/

/-- Which quotes are open. -/
structure Quoting where
  double : Bool := false
  single : Bool := false
deriving DecidableEq, Repr

namespace Quoting

variable {q : Quoting} {depth : Nat} {c : Char} {cs body : List Char}

/-- Whether a quote is open. -/
def isOpen (q : Quoting) : Bool :=
  q.double || q.single

/-- Goes on behind a character. A quote opens and closes quotes of its kind, unless one of the
other kind is open. -/
def step (q : Quoting) (c : Char) : Quoting :=
  if c = '"' ∧ q.single = false then { q with double := !q.double }
  else if c = '\'' ∧ q.double = false then { q with single := !q.single }
  else q

/-- Which quotes are open behind a text. -/
def behind (q : Quoting) (cs : List Char) : Quoting :=
  cs.foldl step q

/-- The characters of a text that stand outside of quotes. -/
def outside (q : Quoting) : List Char → List Char
  | [] => []
  | c :: cs => if q.isOpen then (q.step c).outside cs else c :: (q.step c).outside cs

/-- The number of parentheses outside of quotes that open. -/
def opened (q : Quoting) (cs : List Char) : Nat :=
  (q.outside cs).count '('

/-- The number of parentheses outside of quotes that close. -/
def closed (q : Quoting) (cs : List Char) : Nat :=
  (q.outside cs).count ')'

/-- A text up to the parenthesis that closes the outermost one of `depth` that are open. -/
structure Encloses (q : Quoting) (depth : Nat) (body : List Char) : Prop where
  line : '\n' ∉ body
  outside : (q.behind body).isOpen = false
  balanced : depth + q.opened body = q.closed body + 1
  nested : ∀ front, front <+: body → q.closed front < depth + q.opened front

/-- The depth behind a character. -/
def deepen (q : Quoting) (depth : Nat) (c : Char) : Nat :=
  if q.isOpen then depth
  else if c = '(' then depth + 1
  else if c = ')' then depth - 1
  else depth

/-- A character counts if no quote is open in front of it. -/
theorem count_outside_cons (d : Char) : (q.outside (c :: cs)).count d =
    (if q.isOpen = false ∧ c = d then 1 else 0) + ((q.step c).outside cs).count d := by
  rw [outside]
  cases q.isOpen with
  | true => simp
  | false =>
    simp only [Bool.false_eq_true, if_false, List.count_cons, beq_iff_eq, true_and]
    omega

/-- Behind a character, the same parenthesis is to be closed from another depth. -/
theorem balance_cons (q : Quoting) (depth : Nat) (c : Char) (cs : List Char) :
    (depth + 1 + q.opened (c :: cs) = q.closed (c :: cs) + 1 ↔
      q.deepen (depth + 1) c + (q.step c).opened cs = (q.step c).closed cs + 1) ∧
    (q.closed (c :: cs) < depth + 1 + q.opened (c :: cs) ↔
      (q.step c).closed cs < q.deepen (depth + 1) c + (q.step c).opened cs) := by
  simp only [opened, closed, count_outside_cons, deepen]
  cases q.isOpen with
  | true => simp
  | false =>
    by_cases hopen : c = '('
    · simp [hopen]
      omega
    · by_cases hclose : c = ')'
      · simp [hclose]
        omega
      · simp [hopen, hclose]

/-- One step into a text that encloses: the quotes and the depth move on, and the rest
encloses. -/
theorem encloses_cons :
    q.Encloses (depth + 1) (c :: body) ↔
      c ≠ '\n' ∧ (q.step c).Encloses (q.deepen (depth + 1) c) body := by
  constructor
  · rintro ⟨hline, houtside, hbalanced, hnested⟩
    rw [List.mem_cons, not_or] at hline
    refine ⟨Ne.symm hline.1, hline.2, houtside, (balance_cons q depth c body).1.1 hbalanced, ?_⟩
    intro front hfront
    exact (balance_cons q depth c front).2.1
      (hnested (c :: front) (List.cons_prefix_cons.2 ⟨rfl, hfront⟩))
  · rintro ⟨hc, hline, houtside, hbalanced, hnested⟩
    refine ⟨?_, houtside, (balance_cons q depth c body).1.2 hbalanced, ?_⟩
    · rw [List.mem_cons, not_or]
      exact ⟨Ne.symm hc, hline⟩
    · intro front hfront
      cases front with
      | nil => exact Nat.succ_pos depth
      | cons d front =>
        obtain ⟨rfl, htail⟩ := List.cons_prefix_cons.1 hfront
        exact (balance_cons q depth d front).2.2 (hnested front htail)

end Quoting

/-! ### The search -/

/-- What is open if the given quote is, or none. -/
def Quoting.of : Option Quote → Quoting
  | none => {}
  | some .double => { double := true }
  | some .single => { single := true }

/-- The quote that is open behind a character. -/
def Quote.after (quote : Option Quote) (c : Char) : Option Quote :=
  match quote with
  | some q => if c = q.char then none else some q
  | none => if c = '"' then some .double else if c = '\'' then some .single else none

/-- The search knows the one quote that is open, and moves on with it as the pair of switches
does. -/
theorem Quoting.of_after (quote : Option Quote) (c : Char) :
    Quoting.of (Quote.after quote c) = (Quoting.of quote).step c := by
  by_cases hdouble : c = '"'
  · subst hdouble
    rcases quote with _ | _ | _ <;> rfl
  · by_cases hsingle : c = '\''
    · subst hsingle
      rcases quote with _ | _ | _ <;> rfl
    · rcases quote with _ | _ | _ <;>
        simp [Quote.after, Quoting.of, Quoting.step, Quote.char, hdouble, hsingle]

/-- A parenthesis that does not close the outermost one is read over. -/
theorem outcome_readClosing_inner_close (depth : Nat) (cs : List Char) :
    Reader.outcome (readClosing none (depth + 2)) (')' :: cs) =
      (Reader.outcome (readClosing none (depth + 1)) cs).map fun out => (')' :: out.1, out.2) := by
  unfold Reader.outcome
  rw [readClosing, if_neg (by decide), if_neg (by simp), if_neg (by simp)]
  rw [show (if isQuote ')' = true then some ')' else none) = none from rfl,
    show depth + 2 - 1 = depth + 1 from rfl]
  dsimp only
  cases readClosing none (depth + 1) cs <;> rfl

/-- One step of the search, on whichever side of a quote it is. -/
theorem outcome_readClosing_step (quote : Option Quote) (depth : Nat) {c : Char} (hbreak : c ≠ '\n')
    (cs : List Char) :
    Reader.outcome (readClosing (quote.map Quote.char) (depth + 1)) (c :: cs) =
      if quote = none ∧ c = ')' ∧ depth = 0 then some ([], cs)
      else (Reader.outcome (readClosing ((Quote.after quote c).map Quote.char)
        ((Quoting.of quote).deepen (depth + 1) c)) cs).map fun out => (c :: out.1, out.2) := by
  cases quote with
  | some q =>
    have hopen : (Quoting.of (some q)).isOpen = true := by cases q <;> rfl
    have hafter : (Quote.after (some q) c).map Quote.char =
        if c = q.char then none else some q.char := by
      rw [Quote.after]
      split <;> rfl
    rw [if_neg (by simp), hafter, Quoting.deepen, if_pos hopen]
    exact outcome_readClosing_some hbreak (depth + 1) cs
  | none =>
    by_cases hparen : c = '('
    · subst hparen
      rw [if_neg (by simp)]
      exact outcome_readClosing_open (depth + 1) cs
    by_cases hclose : c = ')'
    · subst hclose
      cases depth with
      | zero => exact outcome_readClosing_close cs
      | succ depth =>
        rw [if_neg (by simp)]
        exact outcome_readClosing_inner_close depth cs
    · have hafter : (Quote.after none c).map Quote.char = if isQuote c then some c else none := by
        by_cases hdouble : c = '"'
        · subst hdouble
          rfl
        by_cases hsingle : c = '\''
        · subst hsingle
          rfl
        · simp [Quote.after, isQuote, hdouble, hsingle]
      have hdeepen : (Quoting.of none).deepen (depth + 1) c = depth + 1 := by
        simp [Quoting.deepen, hparen, hclose]
      rw [if_neg (by simp [hclose]), hafter, hdeepen]
      exact outcome_readClosing_none hbreak hparen hclose (depth + 1) cs

/-- The search does not go on to another line. -/
theorem outcome_readClosing_break (quote : Option Char) (depth : Nat) (cs : List Char) :
    Reader.outcome (readClosing quote depth) ('\n' :: cs) = none := by
  unfold Reader.outcome
  rw [readClosing.eq_def]
  rfl

/-- No quote is open exactly if the search has none. -/
theorem Quoting.isOpen_of {quote : Option Quote} :
    (Quoting.of quote).isOpen = false ↔ quote = none := by
  rcases quote with _ | _ | _ <;> decide

/-- Only the last parenthesis brings the depth back to zero. -/
theorem Quoting.exists_deepen {quote : Option Quote} {depth : Nat} {c : Char}
    (h : ¬(quote = none ∧ c = ')' ∧ depth = 0)) :
    ∃ depth', (Quoting.of quote).deepen (depth + 1) c = depth' + 1 := by
  rw [← Quoting.isOpen_of] at h
  unfold Quoting.deepen
  split
  · exact ⟨depth, rfl⟩
  split
  · exact ⟨depth + 1, rfl⟩
  split
  · next hopen _ hclose =>
    have hdepth : depth ≠ 0 := fun hzero => h ⟨by simpa using hopen, hclose, hzero⟩
    exact ⟨depth - 1, by omega⟩
  · exact ⟨depth, rfl⟩

/-- The search ends at the parenthesis that closes all that are open, and nowhere else. -/
theorem outcome_readClosing_iff (quote : Option Quote) (depth : Nat) {cs body rest : List Char} :
    Reader.outcome (readClosing (quote.map Quote.char) (depth + 1)) cs = some (body, rest) ↔
      cs = body ++ ')' :: rest ∧ (Quoting.of quote).Encloses (depth + 1) body := by
  -- The quote and the depth are the state of the search, so both change in the induction.
  induction cs generalizing quote depth body with
  | nil =>
    refine iff_of_false (by rintro ⟨⟩) ?_
    rintro ⟨heq, -⟩
    cases body <;> cases heq
  | cons c cs ih =>
    by_cases hbreak : c = '\n'
    · subst hbreak
      rw [outcome_readClosing_break]
      refine iff_of_false (by rintro ⟨⟩) ?_
      rintro ⟨heq, hencloses⟩
      cases body with
      | nil => cases heq
      | cons d body =>
        obtain ⟨rfl, -⟩ := List.cons.inj heq
        exact hencloses.line List.mem_cons_self
    rw [outcome_readClosing_step quote depth hbreak]
    split
    · next hlast =>
      obtain ⟨rfl, rfl, rfl⟩ := hlast
      constructor
      · intro h
        obtain ⟨rfl, rfl⟩ := Prod.mk.inj (Option.some.inj h)
        refine ⟨rfl, List.not_mem_nil, rfl, rfl, fun front hfront => ?_⟩
        rw [List.prefix_nil.1 hfront]
        decide
      · rintro ⟨heq, hencloses⟩
        cases body with
        | nil =>
          obtain ⟨-, rfl⟩ := List.cons.inj heq
          rfl
        | cons d body =>
          -- Behind this parenthesis none is open any more.
          obtain ⟨rfl, -⟩ := List.cons.inj heq
          obtain ⟨-, hbehind⟩ := Quoting.encloses_cons.1 hencloses
          exact absurd (hbehind.nested [] List.nil_prefix) (by decide)
    · next hlast =>
      obtain ⟨depth', hdepth⟩ := Quoting.exists_deepen hlast
      rw [hdepth]
      constructor
      · intro h
        obtain ⟨⟨body', rest'⟩, hread, heq⟩ := Option.map_eq_some_iff.1 h
        obtain ⟨rfl, rfl⟩ := Prod.mk.inj heq
        obtain ⟨rfl, hencloses⟩ := (ih _ _).1 hread
        refine ⟨rfl, Quoting.encloses_cons.2 ⟨hbreak, ?_⟩⟩
        rwa [hdepth, ← Quoting.of_after]
      · rintro ⟨heq, hencloses⟩
        cases body with
        | nil =>
          obtain ⟨rfl, -⟩ := List.cons.inj heq
          have hzero : depth = 0 := Nat.succ.inj hencloses.balanced
          exact absurd ⟨Quoting.isOpen_of.1 hencloses.outside, rfl, hzero⟩ hlast
        | cons d body =>
          obtain ⟨rfl, rfl⟩ := List.cons.inj heq
          obtain ⟨-, hbehind⟩ := Quoting.encloses_cons.1 hencloses
          rw [hdepth, ← Quoting.of_after] at hbehind
          rw [(ih _ _).2 ⟨rfl, hbehind⟩]
          rfl

/-! ### The match of the first parenthesis -/

/-- A text up to the parenthesis that matches the one it starts with. -/
structure Matched (before : List Char) : Prop where
  /-- The parenthesis stands on the first line. -/
  line : '\n' ∉ before
  /-- It stands outside of quotes. -/
  outside : (Quoting.behind {} before).isOpen = false
  /-- With it, as many parentheses are closed as are opened. -/
  balanced : Quoting.opened {} (before ++ [')']) = Quoting.closed {} (before ++ [')'])
  /-- In front of it, more are opened than closed. -/
  nested : ∀ front, front <+: before → front ≠ [] →
    Quoting.closed {} front < Quoting.opened {} front

/-- The last character stands outside if no quote is open in front of it. -/
theorem Quoting.outside_concat (q : Quoting) (cs : List Char) (c : Char) :
    q.outside (cs ++ [c]) = q.outside cs ++ if (q.behind cs).isOpen then [] else [c] := by
  induction cs generalizing q with
  | nil => rw [List.nil_append, outside, outside]; rfl
  | cons d cs ih =>
    rw [List.cons_append, outside, outside, ih]
    cases q.isOpen <;> rfl

/-- A parenthesis outside of quotes counts where it stands. -/
theorem Quoting.counts_close {q : Quoting} {cs : List Char} (h : (q.behind cs).isOpen = false) :
    q.opened (cs ++ [')']) = q.opened cs ∧ q.closed (cs ++ [')']) = q.closed cs + 1 := by
  have houtside : q.outside (cs ++ [')']) = q.outside cs ++ [')'] := by
    rw [outside_concat, h]
    rfl
  simp [opened, closed, houtside]

/-- The parenthesis a list starts with counts as one that opens. -/
theorem Quoting.counts_open (cs : List Char) :
    Quoting.opened {} ('(' :: cs) = 1 + Quoting.opened {} cs ∧
      Quoting.closed {} ('(' :: cs) = Quoting.closed {} cs := by
  rw [opened, closed, count_outside_cons, count_outside_cons]
  exact ⟨rfl, Nat.zero_add _⟩

/-- A text up to the match of its first parenthesis is, without that one, a text that encloses
at depth one. -/
theorem matched_cons_iff {body : List Char} :
    Matched ('(' :: body) ↔ Quoting.Encloses {} 1 body := by
  have hcounts := Quoting.counts_open
  constructor
  · rintro ⟨hline, houtside, hbalanced, hnested⟩
    refine ⟨fun hmem => hline (List.mem_cons_of_mem _ hmem), houtside, ?_, ?_⟩
    · obtain ⟨hopened, hclosed⟩ := Quoting.counts_close houtside
      rw [hopened, hclosed, (hcounts body).1, (hcounts body).2] at hbalanced
      exact hbalanced
    · intro front hfront
      have hlt := hnested ('(' :: front) (List.cons_prefix_cons.2 ⟨rfl, hfront⟩)
        (List.cons_ne_nil _ _)
      rwa [(hcounts front).1, (hcounts front).2] at hlt
  · rintro ⟨hline, houtside, hbalanced, hnested⟩
    refine ⟨?_, houtside, ?_, ?_⟩
    · rw [List.mem_cons, not_or]
      exact ⟨by decide, hline⟩
    · have hfront : (Quoting.behind {} ('(' :: body)).isOpen = false := houtside
      obtain ⟨hopened, hclosed⟩ := Quoting.counts_close hfront
      rw [hopened, hclosed, (hcounts body).1, (hcounts body).2]
      exact hbalanced
    · intro front hfront hne
      obtain ⟨c, front, rfl⟩ := List.exists_cons_of_ne_nil hne
      obtain ⟨rfl, htail⟩ := List.cons_prefix_cons.1 hfront
      rw [(hcounts front).1, (hcounts front).2]
      exact hnested front htail

/-- From the start of a list, the search finds the match of the first parenthesis and nothing
else. -/
theorem outcome_readClosing_zero_iff {cs before after : List Char} (h : cs.head? = some '(') :
    Reader.outcome (readClosing none 0) cs = some (before, after) ↔
      cs = before ++ ')' :: after ∧ Matched before := by
  obtain ⟨inner, rfl⟩ := List.head?_eq_some_iff.1 h
  rw [outcome_readClosing_open, Option.map_eq_some_iff]
  constructor
  · rintro ⟨⟨body, rest⟩, hread, heq⟩
    obtain ⟨rfl, rfl⟩ := Prod.mk.inj heq
    obtain ⟨rfl, hencloses⟩ := (outcome_readClosing_iff none 0).1 hread
    exact ⟨rfl, matched_cons_iff.2 hencloses⟩
  · rintro ⟨heq, hmatched⟩
    cases before with
    | nil => cases heq
    | cons c body =>
      obtain ⟨rfl, rfl⟩ := List.cons.inj heq
      have hread : Reader.outcome (readClosing none 1) (body ++ ')' :: after) =
          some (body, after) :=
        (outcome_readClosing_iff none 0).2 ⟨rfl, matched_cons_iff.1 hmatched⟩
      exact ⟨(body, after), hread, rfl⟩

/-- The offset found is that of the matching parenthesis, in bytes. -/
theorem closingOffset?_eq_some_iff {text : String} (h : text.toList.head? = some '(') {i : Nat} :
    closingOffset? text = some i ↔
      ∃ before after, text.toList = before ++ ')' :: after ∧
        (String.ofList before).utf8ByteSize = i ∧ Matched before := by
  rw [closingOffset?_eq, Option.map_eq_some_iff]
  constructor
  · rintro ⟨⟨before, after⟩, hread, rfl⟩
    obtain ⟨htext, hmatched⟩ := (outcome_readClosing_zero_iff h).1 hread
    exact ⟨before, after, htext, rfl, hmatched⟩
  · rintro ⟨before, after, htext, rfl, hmatched⟩
    exact ⟨(before, after), (outcome_readClosing_zero_iff h).2 ⟨htext, hmatched⟩, rfl⟩

/-- What stands behind the parenthesis does not matter. -/
theorem closingOffset?_append {before after : List Char} (hmatched : Matched before)
    (hhead : (before ++ ')' :: after).head? = some '(') :
    closingOffset? (String.ofList (before ++ ')' :: after)) =
      some (String.ofList before).utf8ByteSize := by
  rw [closingOffset?_eq_some_iff (by rwa [String.toList_ofList])]
  exact ⟨before, after, String.toList_ofList, rfl, hmatched⟩

/-! ### Where a list ends -/

theorem utf8ByteSize_ofList_append (xs ys : List Char) :
    (String.ofList (xs ++ ys)).utf8ByteSize =
      (String.ofList xs).utf8ByteSize + (String.ofList ys).utf8ByteSize := by
  rw [String.ofList_append, String.utf8ByteSize_append]

/-- A space takes one byte. -/
theorem utf8ByteSize_ofList_of_isSpace {xs : List Char} (h : ∀ c ∈ xs, isSpace c = true) :
    (String.ofList xs).utf8ByteSize = xs.length := by
  induction xs with
  | nil => rfl
  | cons c xs ih =>
    obtain ⟨hc, hxs⟩ := List.forall_mem_cons.1 h
    obtain rfl := beq_iff_eq.1 hc
    have hspace : (String.ofList [' ']).utf8ByteSize = 1 := rfl
    rw [← List.singleton_append, utf8ByteSize_ofList_append, ih hxs, hspace, List.length_append,
      List.length_singleton]

/-- A list that is read as a token ends at the parenthesis that matches. -/
theorem readAttributes_eq {cs rest : List Char} {token : Token}
    (h : Reader.outcome Token.readAttributes cs = some (token, rest)) :
    ∃ body, cs.dropWhile isSpace = '(' :: body ++ ')' :: rest ∧ Matched ('(' :: body) ∧
      token = .attributes (String.ofList (trim isBlank body))
        (Attributes.parse (String.ofList (trim isBlank body))) := by
  rw [Token.outcome_readAttributes] at h
  split at h
  · obtain ⟨inner, hinner, h⟩ := Option.bind_eq_some_iff.1 h
    obtain ⟨⟨body, rest'⟩, hread, heq⟩ := Option.map_eq_some_iff.1 h
    obtain ⟨rfl, rfl⟩ := Prod.mk.inj heq
    obtain ⟨rfl, hencloses⟩ := (outcome_readClosing_iff none 0).1 hread
    have hdrop : cs.dropWhile isSpace = ['('] ++ (body ++ ')' :: rest') :=
      after?_eq_some_iff.1 hinner
    exact ⟨body, hdrop, matched_cons_iff.2 hencloses, rfl⟩
  · cases h

/-- The search for the end of an attribute list finds the parenthesis that matches the one the
list starts with, and nothing behind it matters. Where a list is read as a token, the spaces in
front of it and the list up to that parenthesis are read, and the token has the trimmed text
between the two parentheses. -/
theorem closing_parenthesis_matches :
    (∀ text : String, text.toList.head? = some '(' →
      (∀ i, closingOffset? text = some i ↔
        ∃ before after, text.toList = before ++ ')' :: after ∧
          (String.ofList before).utf8ByteSize = i ∧ Matched before) ∧
      (∀ i, closingOffset? text = some i →
        ∃ list behind, text = list ++ behind ∧ list.utf8ByteSize = i + 1 ∧
          ∀ other, closingOffset? (list ++ other) = some i) ∧
      ∀ i more, closingOffset? text = some i → closingOffset? (text ++ more) = some i) ∧
    ∀ (cs : List Char) (token : Token) (rest : List Char),
      Reader.outcome Token.readAttributes cs = some (token, rest) →
        ∃ (body : List Char) (i : Nat) (raw : String),
          cs = cs.takeWhile isSpace ++ ('(' :: body ++ [')']) ++ rest ∧
          closingOffset? (String.ofList (cs.dropWhile isSpace)) = some i ∧
          (String.ofList ('(' :: body)).utf8ByteSize = i ∧
          (String.ofList (cs.takeWhile isSpace ++ ('(' :: body ++ [')']))).utf8ByteSize =
            (cs.takeWhile isSpace).length + i + 1 ∧
          raw = String.ofList (trim isBlank body) ∧
          token = .attributes raw (Attributes.parse raw) := by
  have hclose : (String.ofList [')']).utf8ByteSize = 1 := rfl
  constructor
  · intro text hhead
    have hpre : ∀ i, closingOffset? text = some i →
        ∃ list behind, text = list ++ behind ∧ list.utf8ByteSize = i + 1 ∧
          ∀ other, closingOffset? (list ++ other) = some i := by
      intro i hi
      obtain ⟨before, after, htext, rfl, hmatched⟩ := (closingOffset?_eq_some_iff hhead).1 hi
      refine ⟨String.ofList (before ++ [')']), String.ofList after, ?_, ?_, ?_⟩
      · rw [← String.ofList_append, List.append_assoc, List.singleton_append, ← htext,
          String.ofList_toList]
      · rw [utf8ByteSize_ofList_append, hclose]
      · intro other
        have hother : String.ofList (before ++ [')']) ++ other =
            String.ofList (before ++ ')' :: other.toList) := by
          apply String.toList_injective
          simp
        rw [hother]
        refine closingOffset?_append hmatched ?_
        -- The text starts with a parenthesis that opens, so something stands before this one.
        cases before with
        | nil =>
          rw [htext] at hhead
          cases hhead
        | cons c before =>
          rw [htext] at hhead
          exact hhead
    refine ⟨fun i => closingOffset?_eq_some_iff hhead, hpre, fun i more hi => ?_⟩
    obtain ⟨list, behind, rfl, -, hother⟩ := hpre i hi
    rw [String.append_assoc]
    exact hother (behind ++ more)
  · intro cs token rest h
    obtain ⟨body, hdrop, hmatched, htoken⟩ := readAttributes_eq h
    have hspaces : ∀ c ∈ cs.takeWhile isSpace, isSpace c = true := fun c hc =>
      List.all_eq_true.1 List.all_takeWhile c hc
    refine ⟨body, _, _, ?_, ?_, rfl, ?_, rfl, htoken⟩
    · have hcs := List.takeWhile_append_dropWhile (p := isSpace) (l := cs)
      rw [hdrop] at hcs
      simpa using hcs.symm
    · rw [hdrop]
      exact closingOffset?_append hmatched rfl
    · rw [utf8ByteSize_ofList_append, utf8ByteSize_ofList_of_isSpace hspaces,
        utf8ByteSize_ofList_append, hclose, Nat.add_assoc]

/-- A list with a parenthesis in quotes and a pair of parentheses inside of it. -/
theorem closing_parenthesis_matches_quoted :
    (∃ before after, "(a=')' (b)) c)".toList = before ++ ')' :: after ∧
        (String.ofList before).utf8ByteSize = 10 ∧ Matched before) ∧
      closingOffset? ("(a=')' (b)) c)" ++ ")") = some 10 ∧
      ∃ body raw, " (a=')' (b)) c)".toList = [' '] ++ ('(' :: body ++ [')']) ++ " c)".toList ∧
        raw = String.ofList (trim isBlank body) ∧
          (String.ofList ('(' :: body)).utf8ByteSize = 10 := by
  have hoffset : closingOffset? "(a=')' (b)) c)" = some 10 := by decide
  have hread : Reader.outcome Token.readAttributes " (a=')' (b)) c)".toList =
      some (.attributes "a=')' (b)" (Attributes.parse "a=')' (b)"), " c)".toList) := by rfl
  obtain ⟨hiff, -, hmore⟩ := closing_parenthesis_matches.1 "(a=')' (b)) c)" rfl
  obtain ⟨body, i, raw, hcs, hi, hbody, -, hraw, -⟩ := closing_parenthesis_matches.2 _ _ _ hread
  have hten : i = 10 := Option.some.inj (hi.symm.trans hoffset)
  exact ⟨(hiff 10).1 hoffset, hmore 10 ")" hoffset, body, raw, hcs, hraw, hbody.trans hten⟩

end Attribute

end Offside
