import Offside.Proofs.General
import Offside.Token.Scanner

/-!
# Tokens end with their line

A token is read off the front of a text, and no token goes on beyond a line break. So
what a reader reads, and whether it reads anything at all, does not change when more
lines follow: only what is left is longer (`Reader.Local`). This holds of all readers
that a scanner uses inside a line (`Scanner.local_readInline`).
-/

set_option autoImplicit false

namespace Offside

open Offside.Character

/-! ### Words and line breaks -/

theorem line_append_break (cs ds : List Char) : line (cs ++ '\n' :: ds) = line cs :=
  takeWhile_append_cons (by simp) cs ds

theorem afterLine_append_break (cs ds : List Char) :
    afterLine (cs ++ '\n' :: ds) = afterLine cs ++ '\n' :: ds :=
  dropWhile_append_cons (by simp) cs ds

/-- A word that holds no line break is found in front of one. -/
theorem after?_append_break {lit : List Char} (h : '\n' ∉ lit) (cs ds : List Char) :
    after? lit (cs ++ '\n' :: ds) = (after? lit cs).map (· ++ '\n' :: ds) := by
  induction lit generalizing cs with
  | nil => rfl
  | cons l lit ih =>
    obtain ⟨hl, hlit⟩ := not_or.1 (mt List.mem_cons.2 h)
    cases cs with
    | nil => simp [after?, Ne.symm hl]
    | cons c cs => by_cases hc : l = c <;> simp [after?, hc, ih hlit]

theorem suffix_of_after? {lit cs rest : List Char} (h : after? lit cs = some rest) :
    rest <:+ cs := by
  rw [after?_eq_some_iff.1 h]
  exact List.suffix_append lit rest

theorem after?_cons_singleton (mark c : Char) (cs : List Char) :
    after? [mark] (c :: cs) = if mark = c then some cs else none := by
  simp [after?]

theorem after?_singleton_eq_none {mark : Char} {cs : List Char} (h : ∀ rest, cs ≠ mark :: rest) :
    after? [mark] cs = none := by
  cases cs with
  | nil => rfl
  | cons c cs =>
    rw [after?_cons_singleton, if_neg]
    rintro rfl
    exact h cs rfl

theorem head?_append_break {mark : Char} (hmark : mark ≠ '\n') {cs : List Char} (ds : List Char)
    (h : cs.head? ≠ some mark) : (cs ++ '\n' :: ds).head? ≠ some mark := by
  cases cs with
  | nil => simpa using Ne.symm hmark
  | cons c cs => exact h

/-! ### Readers -/

namespace Character.Reader

variable {α β : Type} {reader reader' : Reader α}

/-- What a reader reads, without the bound on what is left. -/
def outcome (reader : Reader α) (cs : List Char) : Option (α × List Char) :=
  (reader cs).map fun (a, rest) => (a, rest.1)

/-- A reader that reads off the front of a text, and does not look beyond a line break. -/
structure Local (reader : Reader α) : Prop where
  append : ∀ cs ds, reader.outcome (cs ++ '\n' :: ds) =
    (reader.outcome cs).map fun (a, rest) => (a, rest ++ '\n' :: ds)
  suffix : ∀ {cs a rest}, reader.outcome cs = some (a, rest) → rest <:+ cs

/-- Readers are the same if they read the same. -/
theorem Local.of_outcome (h : reader.Local) (heq : reader'.outcome = reader.outcome) :
    reader'.Local := by
  obtain ⟨happend, hsuffix⟩ := h
  rw [← heq] at happend hsuffix
  exact ⟨happend, hsuffix⟩

theorem local_none : Local fun _ => (none : Option (α × _)) :=
  ⟨fun _ _ => rfl, nofun⟩

theorem outcome_map (f : α → β) (cs : List Char) :
    outcome (fun cs => (reader cs).map fun (a, rest) => (f a, rest)) cs =
      (reader.outcome cs).map fun (a, rest) => (f a, rest) := by
  unfold outcome
  dsimp only
  cases reader cs <;> rfl

theorem Local.map (h : reader.Local) (f : α → β) :
    Local fun cs => (reader cs).map fun (a, rest) => (f a, rest) := by
  constructor
  · intro cs ds
    rw [outcome_map, outcome_map, h.append, Option.map_map, Option.map_map]
    rfl
  · intro cs b rest hread
    rw [outcome_map] at hread
    obtain ⟨⟨a, rest'⟩, ha, heq⟩ := Option.map_eq_some_iff.1 hread
    obtain ⟨-, rfl⟩ := Prod.mk.inj heq
    exact h.suffix ha

theorem outcome_or (cs : List Char) :
    outcome (fun cs => (reader cs).or (reader' cs)) cs =
      (reader.outcome cs).or (reader'.outcome cs) := by
  unfold outcome
  dsimp only
  cases reader cs <;> rfl

theorem Local.or (h : reader.Local) (h' : reader'.Local) :
    Local fun cs => (reader cs).or (reader' cs) := by
  constructor
  · intro cs ds
    rw [outcome_or, outcome_or, h.append, h'.append, Option.map_or]
  · intro cs a rest hread
    rw [outcome_or] at hread
    rcases Option.or_eq_some_iff.1 hread with hread | ⟨-, hread⟩
    · exact h.suffix hread
    · exact h'.suffix hread

/-- The first of some readers that reads anything. -/
theorem local_findSome? {readers : List (Reader α)} (h : ∀ reader ∈ readers, Local reader) :
    Local fun cs => readers.findSome? fun reader => reader cs := by
  induction readers with
  | nil => exact local_none
  | cons reader readers ih =>
    have hothers := ih fun reader hmem => h reader (List.mem_cons_of_mem _ hmem)
    refine ((h reader List.mem_cons_self).or hothers).of_outcome (funext fun cs => ?_)
    unfold outcome
    dsimp only
    rw [List.findSome?_cons]
    cases reader cs <;> rfl

/-- Reads a character and a run behind it. -/
def run (p q : Char → Bool) (make : Char → List Char → α) : Reader α
  | [] => none
  | c :: cs => if p c then some (make c (cs.takeWhile q), .afterRun q c cs) else none

theorem local_run {p q : Char → Bool} (make : Char → List Char → α) (hp : p '\n' = false)
    (hq : q '\n' = false) : Local (run p q make) := by
  constructor
  · intro cs ds
    cases cs with
    | nil => simp [outcome, run, hp]
    | cons c cs =>
      cases hc : p c <;>
        simp [outcome, run, hc, Rest.afterRun, takeWhile_append_cons hq,
          dropWhile_append_cons hq]
  · intro cs a rest h
    cases cs with
    | nil => cases h
    | cons c cs =>
      cases hc : p c with
      | false => simp [outcome, run, hc] at h
      | true =>
        obtain ⟨-, rfl⟩ : _ ∧ cs.dropWhile q = rest := by
          simpa [outcome, run, hc, Rest.afterRun] using h
        exact (List.dropWhile_suffix _).trans (List.suffix_cons c cs)

/-- Reads nothing where a condition on the line holds. -/
theorem Local.unless (h : reader.Local) {p : List Char → Bool}
    (hp : ∀ cs ds, p (cs ++ '\n' :: ds) = p cs) :
    Local fun cs => if p cs then none else reader cs := by
  have houtcome : ∀ cs, outcome (fun cs => if p cs then none else reader cs) cs =
      if p cs then none else reader.outcome cs := by
    intro cs
    unfold outcome
    dsimp only
    split <;> rfl
  constructor
  · intro cs ds
    rw [houtcome, houtcome, hp, h.append]
    split <;> rfl
  · intro cs a rest hread
    rw [houtcome] at hread
    split at hread
    · cases hread
    · exact h.suffix hread

/-- Reads a mark and goes on behind it. -/
def behind (mark : Char) (reader : Reader α) : Reader α
  | [] => none
  | c :: cs =>
    if c = mark then
      (reader cs).map fun (a, rest) => (a, ⟨rest.1, Nat.lt_succ_of_lt rest.2⟩)
    else none

theorem outcome_behind_cons (mark c : Char) (cs : List Char) :
    (behind mark reader).outcome (c :: cs) = if c = mark then reader.outcome cs else none := by
  unfold outcome behind
  dsimp only
  split
  · cases reader cs <;> rfl
  · rfl

theorem outcome_behind_eq_none {mark : Char} {cs : List Char} (h : cs.head? ≠ some mark) :
    (behind mark reader).outcome cs = none := by
  cases cs with
  | nil => rfl
  | cons c cs => rw [outcome_behind_cons, if_neg (by simpa using h)]

/-- A reader that reads nothing but behind a mark. -/
theorem outcome_eq_behind {mark : Char} (hother : ∀ cs, cs.head? ≠ some mark → reader' cs = none)
    (h : ∀ cs, reader'.outcome (mark :: cs) = reader.outcome cs) :
    reader'.outcome = (behind mark reader).outcome := by
  funext cs
  by_cases hcs : cs.head? = some mark
  · obtain ⟨rest, rfl⟩ := List.head?_eq_some_iff.1 hcs
    rw [h, outcome_behind_cons, if_pos rfl]
  · rw [outcome_behind_eq_none hcs, outcome, hother cs hcs]
    rfl

theorem Local.behind {mark : Char} (hmark : mark ≠ '\n') (h : reader.Local) :
    Local (behind mark reader) := by
  constructor
  · intro cs ds
    cases cs with
    | nil =>
      rw [List.nil_append, outcome_behind_cons, if_neg (Ne.symm hmark)]
      rfl
    | cons c cs =>
      rw [List.cons_append, outcome_behind_cons, outcome_behind_cons, h.append]
      split <;> rfl
  · intro cs a rest hread
    cases cs with
    | nil => cases hread
    | cons c cs =>
      rw [outcome_behind_cons] at hread
      split at hread
      · exact (h.suffix hread).trans (List.suffix_cons c cs)
      · cases hread

end Character.Reader

/-! ### The readers for tokens -/

namespace Token

open Character.Reader

theorem local_readLine : Reader.Local readLine :=
  (local_run (p := isInline) (fun c cs => c :: cs) rfl rfl).of_outcome
    (funext fun cs => by cases cs <;> rfl)

theorem outcome_readDoctype (cs : List Char) :
    Reader.outcome readDoctype cs =
      ((after? "doctype".toList cs).or (after? "!!!".toList cs)).map fun inner =>
        (.doctype (String.ofList (trim isBlank
            ((inner.dropWhile isSpace).takeWhile readDoctype.isVersion))),
          (inner.dropWhile isSpace).dropWhile readDoctype.isVersion) := by
  unfold Reader.outcome readDoctype
  split
  · next h =>
    rw [h]
    rfl
  · next inner h => simp only [h, Option.map_some]

theorem local_readDoctype : Reader.Local readDoctype := by
  have hversion : readDoctype.isVersion '\n' = false := by decide
  have hspace : isSpace '\n' = false := rfl
  constructor
  · intro cs ds
    rw [outcome_readDoctype, outcome_readDoctype, after?_append_break (by decide),
      after?_append_break (by decide), ← Option.map_or, Option.map_map, Option.map_map]
    congr 1
    funext inner
    simp only [Function.comp, dropWhile_append_cons hspace, takeWhile_append_cons hversion,
      dropWhile_append_cons hversion]
  · intro cs token rest h
    rw [outcome_readDoctype] at h
    obtain ⟨inner, hinner, heq⟩ := Option.map_eq_some_iff.1 h
    obtain ⟨-, rfl⟩ := Prod.mk.inj heq
    have hsuffix : inner <:+ cs := by
      rcases Option.or_eq_some_iff.1 hinner with h | ⟨-, h⟩
      · exact suffix_of_after? h
      · exact suffix_of_after? h
    exact ((List.dropWhile_suffix _).trans (List.dropWhile_suffix _)).trans hsuffix

theorem local_readTag : Reader.Local readTag :=
  (local_run (p := isWord) (q := isTagName) (fun c cs => Token.tag (String.ofList (c :: cs)))
    (by decide) (by decide)).of_outcome (funext fun cs => by cases cs <;> rfl)

theorem readPipe_eq_none {cs : List Char} (h : cs.head? ≠ some '|') : readPipe cs = none := by
  unfold readPipe
  split
  · exact absurd rfl h
  · rfl

theorem local_readPipe : Reader.Local readPipe := by
  constructor
  · intro cs ds
    by_cases hc : cs.head? = some '|'
    · obtain ⟨rest, rfl⟩ := List.head?_eq_some_iff.1 hc
      rfl
    · rw [outcome, outcome, readPipe_eq_none hc,
        readPipe_eq_none (head?_append_break (by decide) ds hc)]
      rfl
  · intro cs token rest h
    by_cases hc : cs.head? = some '|'
    · obtain ⟨cs, rfl⟩ := List.head?_eq_some_iff.1 hc
      obtain ⟨-, rfl⟩ : _ ∧ cs = rest := by simpa [outcome, readPipe] using h
      exact List.suffix_cons '|' cs
    · rw [outcome, readPipe_eq_none hc] at h
      cases h

theorem readMarkup_eq_none {cs : List Char} (h : cs.head? ≠ some '<') : readMarkup cs = none := by
  unfold readMarkup
  split
  · exact absurd rfl h
  · rfl

theorem local_readMarkup : Reader.Local readMarkup := by
  have hrun := local_run (p := fun c => isWord c || c == '/') (q := isInline)
    (fun c cs => Token.text (String.ofList ('<' :: c :: cs))) (by decide) rfl
  refine Local.of_outcome (hrun.behind (by decide))
    (outcome_eq_behind (fun _ => readMarkup_eq_none) fun cs => ?_)
  cases cs with
  | nil => rfl
  | cons c cs =>
    unfold outcome
    rw [readMarkup, run]
    split <;> rfl

theorem readFilter_eq_none {cs : List Char} (h : cs.head? ≠ some ':') : readFilter cs = none := by
  unfold readFilter
  split
  · exact absurd rfl h
  · rfl

theorem local_readFilter : Reader.Local readFilter := by
  have hrun := local_run (p := isWord) (q := isWord)
    (fun c cs => Token.filter (String.ofList (c :: cs))) (by decide) (by decide)
  refine Local.of_outcome (hrun.behind (by decide))
    (outcome_eq_behind (fun _ => readFilter_eq_none) fun cs => ?_)
  cases cs with
  | nil => rfl
  | cons c cs =>
    unfold outcome
    rw [readFilter, run]
    split <;> rfl

theorem readMarked_eq_none {mark : Char} {make : String → Token} {cs : List Char}
    (h : cs.head? ≠ some mark) : readMarked mark make cs = none := by
  unfold readMarked
  split
  · exact if_neg fun hm => h (by simp_all)
  · rfl

theorem local_readMarked {mark : Char} (hmark : mark ≠ '\n') (make : String → Token) :
    Reader.Local (readMarked mark make) := by
  have hrun := local_run (p := isName) (q := isName) (fun c cs => make (String.ofList (c :: cs)))
    (by decide) (by decide)
  refine Local.of_outcome (hrun.behind hmark)
    (outcome_eq_behind (fun _ => readMarked_eq_none) fun cs => ?_)
  cases cs with
  | nil => rfl
  | cons c cs =>
    unfold outcome
    rw [readMarked, run]
    cases isName c <;> simp [Rest.afterRun]

/-- Reads the rest of a line as code. -/
def readSource (buffered : Bool) : Reader Token := fun cs =>
  (readLine cs).map fun (source, rest) => (.code (String.ofList source) buffered, rest)

theorem local_readSource (buffered : Bool) : Reader.Local (readSource buffered) :=
  local_readLine.map fun source => Token.code (String.ofList source) buffered

/-- Code is a line behind one of three marks. -/
theorem outcome_readCode : Reader.outcome readCode =
    outcome fun cs => (behind '!' (behind '=' (readSource true)) cs).or
      ((behind '=' (readSource true) cs).or (behind '-' (readSource false) cs)) := by
  funext cs
  rw [outcome_or, outcome_or]
  unfold readCode
  rw [outcome]
  split
  · next rest =>
    simp only [outcome_behind_cons]
    cases hline : readLine rest <;> simp [outcome, readSource, hline]
  · next c cs hshow =>
    have hplain : ¬(c = '!' ∧ cs.head? = some '=') := by
      rintro ⟨rfl, hcs⟩
      obtain ⟨rest, rfl⟩ := List.head?_eq_some_iff.1 hcs
      exact hshow rest rfl rfl
    have hnone : (if c = '!' then (behind '=' (readSource true)).outcome cs else none) = none := by
      split
      · next hc => exact outcome_behind_eq_none fun hcs => hplain ⟨hc, hcs⟩
      · rfl
    rw [outcome_behind_cons, hnone, Option.none_or, outcome_behind_cons, outcome_behind_cons]
    by_cases hc : c = '='
    · subst hc
      cases hline : readLine cs <;> simp [outcome, readSource, hline]
    · by_cases hc' : c = '-'
      · subst hc'
        cases hline : readLine cs <;> simp [outcome, readSource, hline]
      · simp [hc, hc']
  · rfl

theorem local_readCode : Reader.Local readCode := by
  have hshow : Local (behind '=' (readSource true)) := (local_readSource true).behind (by decide)
  have hhide : Local (behind '-' (readSource false)) := (local_readSource false).behind (by decide)
  exact ((hshow.behind (by decide)).or (hshow.or hhide)).of_outcome outcome_readCode

/-- A comment is a mark behind spaces, and a line. -/
theorem outcome_readComment (cs : List Char) :
    Reader.outcome readComment cs = (after? ['/'] (cs.dropWhile isSpace)).map fun inner =>
      let buffered := inner.head? == some '!'
      let body := if buffered then inner.tail else inner
      (.comment (String.ofList (line body)) buffered, afterLine body) := by
  unfold outcome readComment
  split
  · next inner h => simp only [h, after?_cons_singleton, if_true, Option.map_some]
  · next h =>
    rw [after?_singleton_eq_none h]
    rfl

theorem local_readComment : Reader.Local readComment := by
  constructor
  · intro cs ds
    have hhead : ∀ inner : List Char,
        ((inner ++ '\n' :: ds).head? == some '!') = (inner.head? == some '!') := by
      intro inner
      cases inner <;> rfl
    have hbody : ∀ inner : List Char,
        (if inner.head? == some '!' then (inner ++ '\n' :: ds).tail else inner ++ '\n' :: ds) =
          (if inner.head? == some '!' then inner.tail else inner) ++ '\n' :: ds := by
      intro inner
      cases inner with
      | nil => rfl
      | cons c inner => split <;> rfl
    rw [outcome_readComment, outcome_readComment, dropWhile_append_cons rfl,
      after?_append_break (by decide), Option.map_map, Option.map_map]
    congr 1
    funext inner
    simp only [Function.comp, hhead, hbody, line_append_break, afterLine_append_break]
  · intro cs token rest h
    rw [outcome_readComment] at h
    obtain ⟨inner, hinner, heq⟩ := Option.map_eq_some_iff.1 h
    obtain ⟨-, rfl⟩ := Prod.mk.inj heq
    have hbody : (if inner.head? == some '!' then inner.tail else inner) <:+ inner := by
      split
      · exact List.tail_suffix inner
      · exact List.suffix_rfl
    exact (((List.dropWhile_suffix _).trans hbody).trans (suffix_of_after? hinner)).trans
      (List.dropWhile_suffix _)

/-- How the parenthesis that closes a list is looked for behind a character. -/
theorem readClosing_cons (quote : Option Char) (depth : Nat) (c : Char) :
    ∃ quote' depth', ∀ cs, Attribute.readClosing quote depth (c :: cs) =
      if c = '\n' then none
      else if quote = none ∧ c = ')' ∧ depth = 1 then some ([], ⟨cs, Nat.lt_succ_self _⟩)
      else if quote = none ∧ c = ')' ∧ depth = 0 then none
      else
        match Attribute.readClosing quote' depth' cs with
        | some (body, ⟨rest, h⟩) => some (c :: body, ⟨rest, Nat.lt_succ_of_lt h⟩)
        | none => none :=
  ⟨_, _, fun cs => Attribute.readClosing.eq_def quote depth (c :: cs)⟩

theorem outcome_readClosing_cons (quote : Option Char) (depth : Nat) (c : Char) :
    ∃ quote' depth', ∀ cs, Reader.outcome (Attribute.readClosing quote depth) (c :: cs) =
      if c = '\n' then none
      else if quote = none ∧ c = ')' ∧ depth = 1 then some ([], cs)
      else if quote = none ∧ c = ')' ∧ depth = 0 then none
      else (Reader.outcome (Attribute.readClosing quote' depth') cs).map
        fun (body, rest) => (c :: body, rest) := by
  obtain ⟨quote', depth', h⟩ := readClosing_cons quote depth c
  refine ⟨quote', depth', fun cs => ?_⟩
  unfold outcome
  rw [h]
  split
  · rfl
  split
  · rfl
  split
  · rfl
  cases Attribute.readClosing quote' depth' cs <;> rfl

theorem local_readClosing (quote : Option Char) (depth : Nat) :
    Reader.Local (Attribute.readClosing quote depth) := by
  constructor
  · intro cs ds
    induction cs generalizing quote depth with
    | nil =>
      obtain ⟨quote', depth', h⟩ := outcome_readClosing_cons quote depth '\n'
      rw [List.nil_append, h, if_pos rfl]
      rfl
    | cons c cs ih =>
      obtain ⟨quote', depth', h⟩ := outcome_readClosing_cons quote depth c
      rw [List.cons_append, h, h, ih]
      split
      · rfl
      split
      · rfl
      split
      · rfl
      · rw [Option.map_map, Option.map_map]
        rfl
  · intro cs body rest hread
    induction cs generalizing quote depth body with
    | nil => cases hread
    | cons c cs ih =>
      obtain ⟨quote', depth', h⟩ := outcome_readClosing_cons quote depth c
      rw [h] at hread
      split at hread
      · cases hread
      split at hread
      · obtain ⟨-, rfl⟩ := Prod.mk.inj (Option.some.inj hread)
        exact List.suffix_cons c cs
      split at hread
      · cases hread
      · obtain ⟨⟨body, rest'⟩, hbody, heq⟩ := Option.map_eq_some_iff.1 hread
        obtain ⟨-, rfl⟩ := Prod.mk.inj heq
        exact (ih _ _ hbody).trans (List.suffix_cons c cs)

theorem startsAttributes_eq (cs : List Char) :
    startsAttributes cs =
      (after? ['('] (cs.dropWhile isSpace)).any
        fun inner => ((line inner).drop 1).contains ')' := by
  unfold startsAttributes
  split
  · next inner h =>
    rw [h, after?_cons_singleton, if_pos rfl]
    rfl
  · next h =>
    rw [after?_singleton_eq_none h]
    rfl

theorem startsAttributes_append_break (cs ds : List Char) :
    startsAttributes (cs ++ '\n' :: ds) = startsAttributes cs := by
  rw [startsAttributes_eq, startsAttributes_eq, dropWhile_append_cons rfl,
    after?_append_break (by decide), Option.any_map]
  congr 1
  funext inner
  simp only [line_append_break]

/-- An attribute list is a parenthesis behind spaces, and what it encloses. -/
theorem outcome_readAttributes (cs : List Char) :
    Reader.outcome readAttributes cs =
      if startsAttributes cs then
        (after? ['('] (cs.dropWhile isSpace)).bind fun inner =>
          (Reader.outcome (Attribute.readClosing none 1) inner).map fun (body, rest) =>
            let raw := String.ofList (trim isBlank body)
            (.attributes raw (Attributes.parse raw), rest)
      else none := by
  unfold outcome readAttributes
  split
  · next inner h =>
    simp only [h, after?_cons_singleton, if_true, Option.bind_some]
    split
    · simp only [Option.map_map]
      rfl
    · rfl
  · next h =>
    rw [startsAttributes_eq, after?_singleton_eq_none h]
    rfl

theorem local_readAttributes : Reader.Local readAttributes := by
  constructor
  · intro cs ds
    rw [outcome_readAttributes, outcome_readAttributes, startsAttributes_append_break,
      dropWhile_append_cons rfl, after?_append_break (by decide)]
    split
    · cases after? ['('] (cs.dropWhile isSpace) with
      | none => rfl
      | some inner =>
        show (Reader.outcome (Attribute.readClosing none 1) (inner ++ '\n' :: ds)).map _ =
          Option.map _ ((Reader.outcome (Attribute.readClosing none 1) inner).map _)
        rw [(local_readClosing none 1).append, Option.map_map, Option.map_map]
        rfl
    · rfl
  · intro cs token rest h
    rw [outcome_readAttributes] at h
    split at h
    · obtain ⟨inner, hinner, h⟩ := Option.bind_eq_some_iff.1 h
      obtain ⟨⟨body, rest'⟩, hbody, heq⟩ := Option.map_eq_some_iff.1 h
      obtain ⟨-, rfl⟩ := Prod.mk.inj heq
      exact (((local_readClosing none 1).suffix hbody).trans (suffix_of_after? hinner)).trans
        (List.dropWhile_suffix _)
    · cases h

theorem local_read : Reader.Local read := by
  refine local_findSome? fun reader hmem => ?_
  simp only [readers, List.mem_cons, List.not_mem_nil, or_false] at hmem
  obtain rfl | rfl | rfl | rfl | rfl | rfl | rfl | rfl | rfl | rfl := hmem
  · exact local_readDoctype
  · exact local_readTag
  · exact local_readPipe
  · exact local_readMarkup
  · exact local_readFilter
  · exact local_readCode
  · exact local_readComment
  · exact local_readMarked (by decide) _
  · exact local_readMarked (by decide) _
  · exact local_readAttributes

theorem local_readInlineText (last : Option Kind) : Reader.Local (readInlineText last) := by
  unfold readInlineText
  split
  · exact local_readLine.map fun body => Token.text (String.ofList (unescapeParens body))
  · exact local_none

end Token

namespace Scanner

open Character.Reader

theorem local_readVerbatim (s : Scanner) : Reader.Local s.readVerbatim := by
  unfold readVerbatim
  split
  · exact local_none
  · next region _ =>
    have hline := Token.local_readLine.map
      fun body => Token.text (String.ofList (region.text body))
    apply hline.unless
    intro cs ds
    rw [Token.startsAttributes_append_break]

/-- What is read inside a line is the same if more lines follow. -/
theorem local_readInline (s : Scanner) : Reader.Local s.readInline :=
  s.local_readVerbatim.or (Token.local_read.or (Token.local_readInlineText s.last))

end Scanner

end Offside
