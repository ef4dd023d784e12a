import Offside.Proofs.Token.Balance
import Offside.Proofs.Token.Local

/-!
# Lines below a template

Two templates are put below each other. `Scanner.extend` is a scanner of the first one
with the lines of the second one below, and every step that the first one takes in front
of its end is taken in the same way (`next_extend`), since tokens end with their line.

At the seam the levels of the first template are closed, once because it ends and once
because the next line is not indented, and `Scanner.Landed` is the scanner behind them.
From there on the lexemes are those of the second template (`Alike.continues`), on later
lines. `Continues` states both, and `exists_landed` is the result for a whole template.
-/

set_option autoImplicit false

namespace Offside

open Offside.Character

/-- The second lexemes have the tokens of the first ones and go on with `next` where those
end. Levels that are open at the end are closed in both. If there are none, a newline
stands in front of `next`, unless that is an end too. -/
inductive Continues (next : List Lexeme) : List Lexeme → List Lexeme → Prop
  | eos (e e' : Lexeme) (he : e.kind = .eos) (he' : e'.kind = .eos) (hnext : next = [e']) :
    Continues next [e] [e']
  | newline (e l : Lexeme) (he : e.kind = .eos) (hl : l.kind = .newline) :
    Continues next [e] (l :: next)
  | outdent (o e o' : Lexeme) (ho : o.kind = .outdent) (he : e.kind = .eos)
      (ho' : o'.token = o.token) : Continues next [o, e] (o' :: next)
  | cons {l l' : Lexeme} {ls ls' : List Lexeme} (hl : l'.token = l.token) (hne : l.kind ≠ .eos)
      (h : Continues next ls ls') : Continues next (l :: ls) (l' :: ls')

namespace Scanner

variable {s s' t : Scanner} {l : Lexeme} {r : Except ScanError Lexeme} {cs ds : List Char}

/-! ### Steps in front of the end -/

/-- The scanner with more lines below. -/
def extend (s : Scanner) (ds : List Char) : Scanner :=
  { s with rest := s.rest ++ '\n' :: ds }

theorem indentTo_extend (s : Scanner) (ds : List Char) (width : Nat) :
    (s.extend ds).indentTo width =
      ((s.indentTo width).1, (s.indentTo width).2.extend ds) := by
  unfold indentTo extend
  dsimp only
  split
  · rfl
  split
  · rfl
  split <;> rfl

/-- A text that does not end with a character that is trimmed. -/
def Tidy (cs : List Char) : Prop :=
  ∀ c ∈ cs.getLast?, Source.isMargin c = false

theorem Tidy.of_suffix (h : Tidy cs) (hsuffix : ds <:+ cs) : Tidy ds := by
  intro c hc
  obtain ⟨es, rfl⟩ := hsuffix
  exact h c (by simp [List.getLast?_append, Option.mem_def.1 hc])

/-- Behind a line break a tidy text holds more than spaces. -/
theorem Tidy.dropWhile_ne_nil (h : Tidy ('\n' :: cs)) : cs.dropWhile isSpace ≠ [] := by
  intro hnil
  have hspaces : ∀ c ∈ cs, isSpace c := List.dropWhile_eq_nil_iff.1 hnil
  cases hlast : cs.getLast? with
  | none =>
    rw [List.getLast?_eq_none_iff] at hlast
    exact absurd (h '\n' (by simp [hlast])) (by decide)
  | some c =>
    have hc : c = ' ' := by simpa [isSpace] using hspaces c (List.mem_of_getLast? hlast)
    exact absurd (h c (by simp [List.getLast?_cons, hlast])) (by rw [hc]; decide)

theorem breakLine_extend (ds : List Char) (h : cs.dropWhile isSpace ≠ []) :
    (s.extend ds).breakLine (cs ++ '\n' :: ds) =
      ((s.breakLine cs).1, (s.breakLine cs).2.extend ds) := by
  have hspace : isSpace '\n' = false := rfl
  have hhead : (cs.dropWhile isSpace ++ '\n' :: ds).head? = (cs.dropWhile isSpace).head? :=
    List.head?_append_of_ne_nil _ h
  unfold breakLine
  dsimp only
  rw [takeWhile_append_cons hspace, dropWhile_append_cons hspace, hhead]
  unfold extend
  dsimp only
  split
  · split
    · rfl
    split
    · rfl
    · exact indentTo_extend { s.toLine cs with region := none } ds _
  · split
    · rfl
    · exact indentTo_extend (s.toLine cs) ds _

/-- The next lexeme inside a line, by what is read there. -/
theorem next_of_inline {c : Char} (hdeferred : s.deferred = []) (hrest : s.rest = c :: cs)
    (hc : c ≠ '\n') :
    s.next = match Reader.outcome s.readInline s.rest with
      | some (token, rest) => { s with rest }.yield token
      | none => (.error (.unknownToken s.line), s) := by
  unfold next Reader.outcome
  split
  · next hdeferred' => simp [hdeferred] at hdeferred'
  · next hnil => simp [hrest] at hnil
  · next hbreak => simp [hrest, hc] at hbreak
  · cases s.readInline s.rest <;> rfl

/-- In front of its end, more lines below do not change how a tidy template is scanned. -/
theorem next_extend (ds : List Char) (htidy : Tidy s.rest) (h : s.deferred ≠ [] ∨ s.rest ≠ []) :
    (s.extend ds).next = (s.next.1, s.next.2.extend ds) := by
  cases hdeferred : s.deferred with
  | cons l ls => simp [next, extend, hdeferred, emit]
  | nil =>
    cases hrest : s.rest with
    | nil => simp [hdeferred, hrest] at h
    | cons c cs =>
      by_cases hc : c = '\n'
      · subst hc
        rw [hrest] at htidy
        have hnext : s.next = s.breakLine cs := by simp [next, hdeferred, hrest]
        have hnext' : (s.extend ds).next = (s.extend ds).breakLine (cs ++ '\n' :: ds) := by
          simp [next, extend, hdeferred, hrest]
        rw [hnext, hnext', breakLine_extend ds htidy.dropWhile_ne_nil]
      · have hrest' : (s.extend ds).rest = c :: (cs ++ '\n' :: ds) := by simp [extend, hrest]
        have hdeferred' : (s.extend ds).deferred = [] := hdeferred
        rw [next_of_inline hdeferred hrest hc, next_of_inline hdeferred' hrest' hc]
        have hread : Reader.outcome (s.extend ds).readInline (s.extend ds).rest = _ :=
          s.local_readInline.append s.rest ds
        rw [hread]
        cases Reader.outcome s.readInline s.rest <;> rfl

/-- Steps only read on. -/
theorem Step.rest_suffix (h : Step s r s') : s'.rest <:+ s.rest := by
  have hbreak : ∀ cs, s.rest = '\n' :: cs → cs.dropWhile isSpace <:+ s.rest := by
    intro cs hrest
    rw [hrest]
    exact (List.dropWhile_suffix _).trans (List.suffix_cons _ _)
  cases h with
  | deferred | close | eos | unknown => exact List.suffix_rfl
  | token c cs token rest hdeferred hrest hc hread =>
    exact s.local_readInline.suffix (by rw [Reader.outcome, hread]; rfl)
  | blank cs hdeferred hrest | verbatimBlank cs region hdeferred hrest
  | verbatimLine cs region hdeferred hrest | same cs hdeferred hrest
  | deeper cs hdeferred hrest | shallower cs closed indents hdeferred hrest
  | malformed cs hdeferred hrest => exact hbreak cs hrest

theorem Step.layout_eq (h : Step s r s') : s'.layout = s.layout := by
  cases h <;> rfl

/-! ### The seam -/

/-- At its end a template closes all levels that are open, and nothing fails. -/
theorem tape_of_end (hdeferred : s.deferred = []) (hrest : s.rest = []) :
    s.tape.lexemes =
        List.replicate s.indents.depth ⟨.outdent, s.line⟩ ++ [⟨.eos, s.line⟩] ∧
      s.tape.failure = none := by
  obtain ⟨layout, rest, line, ⟨opened⟩, region, last, deferred⟩ := s
  obtain rfl : deferred = [] := hdeferred
  obtain rfl : rest = [] := hrest
  induction opened generalizing last with
  | nil =>
    rw [tape_of_eos (l := ⟨.eos, line⟩) rfl rfl]
    exact ⟨rfl, rfl⟩
  | cons width opened ih =>
    have hnext : next ⟨layout, [], line, ⟨width :: opened⟩, region, last, []⟩ =
        (.ok ⟨.outdent, line⟩, ⟨layout, [], line, ⟨opened⟩, region, some .outdent, []⟩) := rfl
    rw [tape_of_ok hnext nofun, Tape.lexemes_cons, Tape.failure_cons, (ih _).1, (ih _).2]
    exact ⟨rfl, rfl⟩

theorem continues_replicate (next : List Lexeme) (n line line' : Nat) :
    Continues next (List.replicate (n + 1) ⟨.outdent, line⟩ ++ [⟨.eos, line⟩])
      (List.replicate (n + 1) ⟨.outdent, line'⟩ ++ next) := by
  induction n with
  | zero => exact .outdent _ _ _ rfl rfl rfl
  | succ n ih => exact .cons rfl nofun ih

/-- A scanner at the start of the lines below a template. -/
structure Landed (layout : Layout) (ds : List Char) (s : Scanner) : Prop where
  layout : s.layout = layout
  rest : s.rest = ds
  indents : s.indents = {}
  region : s.region = none
  last : s.last.any Token.Kind.hostsText = false
  deferred : s.deferred = []

section

variable (hhead : ds.head?.any Source.isMargin = false) (hne : ds ≠ [])

include hhead hne

/-- The line below the end of a template is compared with the open levels, and closes the
region if one is open. -/
theorem next_extend_of_end (hdeferred : s.deferred = []) (hrest : s.rest = []) :
    (s.extend ds).next = { s with rest := ds, line := s.line + 1, region := none }.indentTo 0 := by
  obtain ⟨c, cs, rfl⟩ := List.exists_cons_of_ne_nil hne
  have hc : Source.isMargin c = false := hhead
  have hspace : isSpace c = false := by
    simp only [Source.isMargin, Bool.or_eq_false_iff] at hc
    exact hc.1.1.1.1.1
  have hbreak : c ≠ '\n' := by
    rintro rfl
    exact absurd hc (by decide)
  have hnext : (s.extend (c :: cs)).next = (s.extend (c :: cs)).breakLine (c :: cs) := by
    simp [next, extend, hdeferred, hrest]
  rw [hnext]
  unfold breakLine extend
  dsimp only
  rw [List.takeWhile_cons_of_neg (by simp [hspace]), List.dropWhile_cons_of_neg (by simp [hspace])]
  have hblank : ((c :: cs).head? == some '\n') = false := by simpa using hbreak
  rw [hblank]
  split
  · rfl
  · next hregion =>
    have hregion : s.region = none := hregion
    rw [← hregion]
    rfl

/-- Where a template ends and where the next line is not indented, the same levels are
closed. -/
theorem exists_landed_of_end (hs : s.Sound) (hdeferred : s.deferred = []) (hrest : s.rest = []) :
    ∃ t, Landed s.layout ds t ∧
      Continues t.tape.lexemes s.tape.lexemes (s.extend ds).tape.lexemes ∧
      (s.extend ds).tape.failure = t.tape.failure := by
  have hnext := next_extend_of_end hhead hne hdeferred hrest
  unfold indentTo at hnext
  rw [(tape_of_end hdeferred hrest).1]
  cases hopened : s.indents.opened with
  | nil =>
    have hempty : s.indents = {} := congrArg Indentation.mk hopened
    have hcurrent : 0 = s.indents.current := by rw [hempty]; rfl
    have hdepth : s.indents.depth = 0 := by rw [hempty]; rfl
    let t : Scanner :=
      { s with rest := ds, line := s.line + 1, region := none, last := some .newline }
    have hnext : (s.extend ds).next = (.ok ⟨.newline, s.line + 1⟩, t) :=
      hnext.trans (if_pos hcurrent)
    have hkind : Token.kind .newline ≠ .eos := by decide
    refine ⟨t, ⟨rfl, rfl, hempty, rfl, rfl, hdeferred⟩, ?_, ?_⟩
    · rw [tape_of_ok hnext hkind, hdepth]
      exact .newline _ _ rfl rfl
    · rw [tape_of_ok hnext hkind]
      rfl
  | cons width opened =>
    have hpos := (Indentation.ascending_iff.1 hs.ascending).1
    have hcurrent : 0 < s.indents.current := by
      simpa [Indentation.current, hopened] using hpos width (by simp [hopened])
    have hdepth : s.indents.depth = opened.length + 1 := by simp [Indentation.depth, hopened]
    -- Every level that is open has some width, so none of them is kept.
    have hkept : s.indents.opened.dropWhile (· ≠ 0) = [] := by
      rw [List.dropWhile_eq_nil_iff]
      intro w hw
      simpa using Nat.ne_of_gt (hpos w hw)
    have hclose : s.indents.closeTo? 0 = some (opened.length + 1, {}) := by
      unfold Indentation.closeTo?
      dsimp only
      rw [hkept, if_pos (.inl rfl), hopened]
      rfl
    let t : Scanner :=
      { s with
        rest := ds, line := s.line + 1, region := none, indents := {}, last := some .outdent }
    have hnext : (s.extend ds).next = (.ok ⟨.outdent, s.line + 1⟩,
        { t with deferred := List.replicate opened.length ⟨.outdent, s.line + 1⟩ }) := by
      rw [hnext, if_neg (Nat.ne_of_lt hcurrent), if_neg (Nat.not_lt_zero _)]
      dsimp only
      rw [hclose, hdeferred]
      rfl
    have htape := (emits_deferred (s := t) hdeferred rfl opened.length (s.line + 1)).tape
    have hkind : Token.kind .outdent ≠ .eos := by decide
    refine ⟨t, ⟨rfl, rfl, rfl, rfl, rfl, hdeferred⟩, ?_, ?_⟩
    · rw [tape_of_ok hnext hkind, Tape.lexemes_cons, htape.1, hdepth]
      exact continues_replicate _ _ _ _
    · rw [tape_of_ok hnext hkind, Tape.failure_cons, htape.2]

end

/-- Below a tidy template that can be scanned, its lexemes are continued with those of the
lines below. -/
theorem exists_landed (hs : s.Sound) (htidy : Tidy s.rest) (hfailure : s.tape.failure = none)
    (hhead : ds.head?.any Source.isMargin = false) (hne : ds ≠ []) :
    ∃ t, Landed s.layout ds t ∧
      Continues t.tape.lexemes s.tape.lexemes (s.extend ds).tape.lexemes ∧
      (s.extend ds).tape.failure = t.tape.failure := by
  induction s using tape_induction with
  | error s e s' hnext => simp [tape_of_error hnext] at hfailure
  | eos s l s' hnext hl =>
    have hend := (Step.of_next hnext).end_of_eos hs hl
    exact exists_landed_of_end hhead hne hs hend.1 hend.2.1
  | step s l s' hnext hl ih =>
    by_cases hend : s.deferred = [] ∧ s.rest = []
    · exact exists_landed_of_end hhead hne hs hend.1 hend.2
    · have hstep := Step.of_next hnext
      have hnext' := next_extend ds htidy (by tauto)
      rw [hnext] at hnext'
      rw [tape_of_ok hnext hl] at hfailure
      obtain ⟨t, ht, hcontinues, hfailure'⟩ :=
        ih (hs.step hstep) (htidy.of_suffix hstep.rest_suffix) hfailure
      rw [hstep.layout_eq] at ht
      refine ⟨t, ht, ?_, ?_⟩
      · rw [tape_of_ok hnext hl, tape_of_ok hnext' hl]
        exact .cons rfl hl hcontinues
      · rw [tape_of_ok hnext' hl]
        exact hfailure'

/-! ### Behind the seam -/

/-- Scanners that read the same tokens, possibly on other lines. Of the last token only
those count that text may follow. -/
structure Alike (s t : Scanner) : Prop where
  layout : t.layout = s.layout
  rest : t.rest = s.rest
  indents : t.indents = s.indents
  region : t.region = s.region
  last : t.last.filter Token.Kind.hostsText = s.last.filter Token.Kind.hostsText
  deferred : t.deferred.map (·.token) = s.deferred.map (·.token)

theorem Landed.alike {layout : Layout} {source : String}
    (h : Landed layout (Source.normalize layout source) t) : Alike (ofSource layout source) t where
  layout := h.layout
  rest := h.rest
  indents := h.indents
  region := h.region
  last := by
    have hlast := h.last
    cases hkind : t.last with
    | none => rfl
    | some kind =>
      rw [hkind] at hlast
      exact Option.filter_some_neg (by simpa using hlast)
  deferred := congrArg _ h.deferred

/-- The second step hands out the same token as the first one, and leaves a scanner like
the one that is left by it. -/
def Agrees (p q : Except ScanError Lexeme × Scanner) : Prop :=
  ∀ l s, p = (.ok l, s) → ∃ l' t, q = (.ok l', t) ∧ l'.token = l.token ∧ Alike s t

theorem agrees_error (e : ScanError) (s : Scanner) (q : Except ScanError Lexeme × Scanner) :
    Agrees (.error e, s) q := by
  intro l s' h
  cases h

section

variable (h : Alike s t)

include h

theorem Alike.emit {l' : Lexeme} (hl : l'.token = l.token) :
    Agrees (s.emit l) (t.emit l') := by
  rintro _ _ ⟨⟩
  refine ⟨_, _, rfl, hl, h.layout, h.rest, h.indents, ?_, ?_, h.deferred⟩
  · rw [hl, h.indents, h.region]
  · rw [Lexeme.kind, hl]
    rfl

theorem Alike.yield (token : Token) : Agrees (s.yield token) (t.yield token) :=
  h.emit rfl

theorem Alike.indentTo (width : Nat) :
    Agrees (s.indentTo width) (t.indentTo width) := by
  unfold Scanner.indentTo
  rw [h.indents]
  split
  · exact h.yield _
  split
  · refine Alike.yield ?_ _
    exact ⟨h.layout, h.rest, rfl, h.region, h.last, h.deferred⟩
  split
  · refine Alike.yield ?_ _
    exact ⟨h.layout, h.rest, rfl, h.region, h.last, by simp [h.deferred]⟩
  · exact agrees_error _ _ _

theorem Alike.breakLine (cs : List Char) :
    Agrees (s.breakLine cs) (t.breakLine cs) := by
  have hline : ∀ region,
      Alike ⟨t.layout, cs.dropWhile isSpace, s.line + 1, s.indents, region, s.last, s.deferred⟩
        ⟨t.layout, cs.dropWhile isSpace, t.line + 1, t.indents, region, t.last, t.deferred⟩ :=
    fun region => ⟨rfl, rfl, h.indents, rfl, h.last, h.deferred⟩
  unfold Scanner.breakLine
  dsimp only
  rw [h.region, ← h.layout]
  split
  · split
    · exact (hline _).yield _
    split
    · exact (hline _).yield _
    · exact (hline _).indentTo _
  · split
    · exact (hline _).yield _
    · exact (hline _).indentTo _

theorem Alike.readInline : t.readInline = s.readInline := by
  have hfilter : ∀ last : Option Token.Kind,
      (last == some .filter) = (last.filter Token.Kind.hostsText == some .filter) := by
    intro last
    cases last with
    | none => rfl
    | some kind => cases kind <;> rfl
  have hhosts : ∀ last : Option Token.Kind,
      last.any Token.Kind.hostsText = (last.filter Token.Kind.hostsText).isSome := by
    intro last
    cases last with
    | none => rfl
    | some kind => cases kind <;> rfl
  unfold Scanner.readInline Scanner.readVerbatim Token.readInlineText
  rw [h.region, hfilter t.last, hfilter s.last, hhosts t.last, hhosts s.last, h.last]

theorem Alike.finish : Agrees s.finish t.finish := by
  unfold Scanner.finish
  rw [h.indents]
  split
  · refine Alike.yield ?_ _
    exact ⟨h.layout, h.rest, rfl, h.region, h.last, h.deferred⟩
  · exact h.yield _

theorem Alike.next : Agrees s.next t.next := by
  have hdeferred := h.deferred
  cases hs : s.deferred with
  | cons l ls =>
    rw [hs, List.map_cons] at hdeferred
    obtain ⟨l', ls', ht, hl, hls⟩ := List.map_eq_cons_iff.1 hdeferred
    have hnext : s.next = { s with deferred := ls }.emit l := by simp [Scanner.next, hs]
    have hnext' : t.next = { t with deferred := ls' }.emit l' := by simp [Scanner.next, ht]
    rw [hnext, hnext']
    refine Alike.emit ?_ hl
    exact ⟨h.layout, h.rest, h.indents, h.region, h.last, hls⟩
  | nil =>
    have ht : t.deferred = [] := by simpa [hs] using hdeferred
    cases hrest : s.rest with
    | nil =>
      have hrest' : t.rest = [] := h.rest.trans hrest
      have hnext : s.next = s.finish := by simp [Scanner.next, hs, hrest]
      have hnext' : t.next = t.finish := by simp [Scanner.next, ht, hrest']
      rw [hnext, hnext']
      exact h.finish
    | cons c cs =>
      have hrest' : t.rest = c :: cs := h.rest.trans hrest
      by_cases hc : c = '\n'
      · subst hc
        have hnext : s.next = s.breakLine cs := by simp [Scanner.next, hs, hrest]
        have hnext' : t.next = t.breakLine cs := by simp [Scanner.next, ht, hrest']
        rw [hnext, hnext']
        exact h.breakLine cs
      · rw [next_of_inline hs hrest hc, next_of_inline ht hrest' hc, h.readInline, h.rest]
        split
        · refine Alike.yield ?_ _
          exact ⟨h.layout, rfl, h.indents, h.region, h.last, h.deferred⟩
        · exact agrees_error _ _ _

/-- The tokens of a template are the same on other lines. -/
theorem Alike.continues (hfailure : s.tape.failure = none) :
    t.tape.failure = none ∧ t.tape.lexemes.map (·.token) = s.tape.lexemes.map (·.token) ∧
      ∃ e, e.kind = .eos ∧ Continues [e] s.tape.lexemes t.tape.lexemes := by
  induction s using tape_induction generalizing t with
  | error s e s' hnext => simp [tape_of_error hnext] at hfailure
  | eos s l s' hnext hl =>
    obtain ⟨l', t', hnext', htoken, -⟩ := h.next _ _ hnext
    have hl' : l'.kind = .eos := by rwa [Lexeme.kind, htoken]
    rw [tape_of_eos hnext hl, tape_of_eos hnext' hl']
    exact ⟨rfl, congrArg ([·]) htoken, l', hl', .eos l l' hl hl' rfl⟩
  | step s l s' hnext hl ih =>
    obtain ⟨l', t', hnext', htoken, h'⟩ := h.next _ _ hnext
    have hl' : l'.kind ≠ .eos := by rwa [Lexeme.kind, htoken]
    rw [tape_of_ok hnext hl] at hfailure ⊢
    obtain ⟨hfailure', htokens, e, he, hcontinues⟩ := ih h' hfailure
    rw [tape_of_ok hnext' hl']
    refine ⟨hfailure', ?_, e, he, .cons htoken hl hcontinues⟩
    simp only [Tape.lexemes_cons, List.map_cons, htokens, htoken]

end

/-- Lines below a template start with a token that is no text, unless they start with
markup. -/
theorem Landed.head_lexemes {layout : Layout} {c : Char} (h : Landed layout (c :: cs) t)
    (hbreak : c ≠ '\n') (hmarkup : c ≠ '<') (hfailure : t.tape.failure = none) :
    ∃ l ls, t.tape.lexemes = l :: ls ∧ l.kind.isInline = true ∧ l.kind ≠ .text := by
  have hread : t.readInline = Token.read := by
    funext cs
    simp [Scanner.readInline, Scanner.readVerbatim, Token.readInlineText, h.region, h.last]
  have hnext := next_of_inline h.deferred h.rest hbreak
  rw [hread, h.rest, Reader.outcome] at hnext
  cases htoken : Token.read (c :: cs) with
  | none =>
    rw [htoken] at hnext
    rw [tape_of_error hnext] at hfailure
    cases hfailure
  | some out =>
    obtain ⟨token, rest⟩ := out
    rw [htoken] at hnext
    obtain ⟨hinline, htext⟩ := Token.kind_of_read htoken
    have heos : token.kind ≠ .eos := by
      intro heq
      rw [heq] at hinline
      cases hinline
    exact ⟨⟨token, t.line⟩, _, congrArg Tape.lexemes (tape_of_ok hnext heos), hinline,
      fun hkind => htext hkind (Token.readMarkup_eq_none (by simpa using hmarkup))⟩

end Scanner

end Offside
