import Offside.Proofs.Document.Abreast

/-!
# Documents with a blank line more

The lexemes of a template are read side by side with those of the same template where a
blank line was inserted. The second reading takes the blank line as a newline that is
skipped, or as an indent inside of a text, which adds nothing to it.

Whatever is read of the first template is read of the second one too and shows the same
(`Reads.showsAlike`), for an empty text below a hidden comment is not shown. So both documents show
the same (`gives_document_blank`).
-/

set_option autoImplicit false

namespace Offside.Reading

variable {c c' d : Cursor} {h : Hold} {l : Lexeme} {ls ls' : List Lexeme} {t : Bool}

/-! ### Runs of lexemes -/

variable {taken : List Lexeme}

/-- Behind the blank line, runs are the same. -/
theorem Reads.same_run {p : Token.Kind → Bool}
    (hreads : Reads (.run p) c taken c') (hcd : c.Ahead SameTokens d) :
    ∃ taken' d', Reads (.run p) d taken' d' ∧ SameTokens taken taken' ∧
      c'.Ahead SameTokens d' := by
  induction hreads using Reads.run_induction generalizing d with
  | stop hgoes hp =>
    exact ⟨[], d.seen, .stop hcd.goes.2 (by rwa [hcd.kind]), rfl, hcd.seen⟩
  | more hp heos hreads ih =>
    obtain ⟨htoken, htake⟩ := hcd.same
    obtain ⟨taken', d', hd', htokens, hsame⟩ := ih htake
    refine ⟨d.next :: taken', d', .more (by rwa [hcd.kind]) (by rwa [hcd.kind]) hd', ?_, hsame⟩
    rw [SameTokens, List.map_cons, List.map_cons, htoken, htokens]

/-- A newline more in front of newlines is skipped with them. -/
theorem Reads.newlines_behind (hd : d.next.kind = .newline)
    (hsame : c.Ahead SameTokens d.take) (hreads : Reads (.run (· = .newline)) c taken c') :
    ∃ taken' d', Reads (.run (· = .newline)) d taken' d' ∧ c'.Meets .free d' := by
  obtain ⟨taken', d', hd', -, hsame'⟩ := hreads.same_run hsame
  exact ⟨d.next :: taken', d', .more (decide_eq_true hd) (hd.trans_ne nofun) hd',
    hsame'.meets .free⟩

/-- Where newlines are skipped, the cursors meet. -/
theorem Reads.meets_newlines
    (hreads : Reads (.run (· = .newline)) c taken c') (hcd : c.Ahead Level d) :
    ∃ taken' d', Reads (.run (· = .newline)) d taken' d' ∧ c'.Meets .free d' := by
  induction hreads using Reads.run_induction generalizing d with
  | stop hgoes hp =>
    rcases hcd.meets_or with hmeets | ⟨hd, hsame⟩
    · exact ⟨[], d.seen, .stop hcd.goes.2 (by rwa [hmeets.kind]), hmeets.seen⟩
    · exact newlines_behind hd hsame (.stop hgoes hp)
  | @more c c' taken hp heos hreads ih =>
    rcases hcd.meets_or with hmeets | ⟨hd, hsame⟩
    · have hnewline : c.next.kind = .newline := of_decide_eq_true hp
      have htake := hmeets.take_free (by rw [hnewline]; rfl)
      obtain ⟨taken', d', hd', hmeets'⟩ := ih htake.level
      exact ⟨d.next :: taken', d', .more (by rwa [hmeets.kind]) (by rwa [hmeets.kind]) hd',
        hmeets'⟩
    · exact newlines_behind hd hsame (.more hp heos hreads)

/-- The shorthands and attribute lists behind a tag are the same. -/
theorem Reads.same_marks (hreads : Reads (.run isMark) c taken c')
    (hcd : c.Ahead (Joins .tagged) d) :
    ∃ taken' d', Reads (.run isMark) d taken' d' ∧ SameTokens taken taken' ∧
      c'.Ahead (Joins .tagged) d' := by
  induction hreads using Reads.run_induction generalizing d with
  | stop hgoes hp =>
    refine ⟨[], d.seen, .stop hcd.goes.2 ?_, rfl, hcd.seen⟩
    rcases hcd.meets_or_break rfl with hmeets | ⟨hd, -, -⟩
    · rwa [hmeets.kind]
    · rw [hd]
      rfl
  | @more c c' taken hp heos hreads ih =>
    rcases hcd.meets_or_break rfl with hmeets | ⟨-, hc, -⟩
    · have htake := hmeets.take
      rw [Hold.tagged_after_of_isMark hp] at htake
      obtain ⟨taken', d', hd', htokens, h'⟩ := ih htake
      refine ⟨d.next :: taken', d', .more (by rwa [hmeets.kind]) (by rwa [hmeets.kind]) hd', ?_,
        h'⟩
      rw [SameTokens, List.map_cons, List.map_cons, hmeets.token, htokens]
    · -- No mark is a break.
      cases hkind : c.next.kind <;> simp_all [isMark, Token.Kind.isInline]

/-! ### Texts -/

/-- The lexemes of text among some lexemes. -/
def prose (ls : List Lexeme) : List Lexeme :=
  ls.filter (·.kind = .text)

theorem prose_cons_of_ne (hl : l.kind ≠ .text) (ls : List Lexeme) : prose (l :: ls) = prose ls :=
  List.filter_cons_of_neg (by simpa using hl)

theorem prose_cons_of_text (hl : l.kind = .text) (ls : List Lexeme) :
    prose (l :: ls) = l :: prose ls :=
  List.filter_cons_of_pos (by simpa using hl)

/-- Lexemes with the same tokens in front keep the prose the same. -/
theorem SameTokens.prose_cons {l' : Lexeme} (htoken : l'.token = l.token)
    (h : SameTokens (prose ls) (prose ls')) : SameTokens (prose (l :: ls)) (prose (l' :: ls')) := by
  have hkind : l'.kind = l.kind := congrArg Token.kind htoken
  by_cases htext : l.kind = .text
  · rw [prose_cons_of_text htext, prose_cons_of_text (hkind.trans htext), SameTokens,
      List.map_cons, List.map_cons, htoken, h]
  · rwa [prose_cons_of_ne htext, prose_cons_of_ne (by rwa [hkind])]

theorem SameTokens.prose (h : SameTokens ls ls') : SameTokens (prose ls) (prose ls') := by
  induction ls generalizing ls' with
  | nil =>
    obtain rfl : ls' = [] := List.map_eq_nil_iff.1 h
    rfl
  | cons l ls ih =>
    obtain ⟨l', ls', rfl, hl, hls⟩ := List.map_eq_cons_iff.1 h
    exact .prose_cons hl (ih hls)

/-- Only lexemes of text add to a text. -/
theorem foldl_addTo_prose (ls : List Lexeme) (text : Text) :
    (prose ls).foldl addTo text = ls.foldl addTo text := by
  induction ls generalizing text with
  | nil => rfl
  | cons l ls ih =>
    by_cases hl : l.kind = .text
    · rw [prose_cons_of_text hl, List.foldl_cons, List.foldl_cons, ih]
    · have hadd : addTo text l = text := by
        unfold addTo
        split
        · next htoken => exact absurd (congrArg Token.kind htoken) hl
        · rfl
      rw [prose_cons_of_ne hl, List.foldl_cons, hadd, ih]

theorem exists_hold_of_texts (hcd : c.Ahead (Texts t) d) :
    ∃ h, (h = .region ∨ h = .loose t) ∧ c.Ahead (Joins h) d := by
  obtain ⟨hjoins | hjoins, hleft, hright⟩ := hcd
  · exact ⟨.region, .inl rfl, hjoins, hleft, hright⟩
  · exact ⟨.loose t, .inr rfl, hjoins, hleft, hright⟩

/-- What is left of a text is read at the second cursor, with the same lines. -/
def RunsOn (t : Bool) (taken : List Lexeme) (c' d : Cursor) : Prop :=
  ∃ taken' d', Reads (.run isTextual) d taken' d' ∧ SameTokens (prose taken) (prose taken') ∧
    c'.Ahead (Past t) d'

theorem runsOn_of_stop (hcd : c.Ahead (Past t) d) (hd : isTextual d.next.kind = false) :
    RunsOn t [] c.seen d :=
  ⟨[], d.seen, .stop hcd.goes.2 hd, rfl, hcd.seen⟩

/-- Behind the blank line, what is left of a text is the same. -/
theorem Reads.runsOn_of_same (hreads : Reads (.run isTextual) c taken c')
    (hsame : c.Ahead SameTokens d) : RunsOn t taken c' d := by
  obtain ⟨taken', d', hd', htokens, hsame'⟩ := hreads.same_run hsame
  exact ⟨taken', d', hd', htokens.prose, (hsame'.joins .free).level.past t⟩

/-- A blank line inside a text adds nothing to it. -/
theorem RunsOn.blank (h : RunsOn t taken c' d.take)
    (hd : d.next.kind = .indent) : RunsOn t taken c' d := by
  obtain ⟨taken', d', hd', htokens, h'⟩ := h
  refine ⟨d.next :: taken', d', .more (by rw [hd]; rfl) (hd.trans_ne nofun) hd', ?_, h'⟩
  rwa [prose_cons_of_ne (hd.trans_ne nofun)]

/-- Texts have the same lines in both readings. Where hidden code on a line of its own is
followed by text at its level, an indent with which the text ends may be left over in the
second reading. -/
theorem Reads.runsOn (hreads : Reads (.run isTextual) c taken c')
    (hcd : c.Ahead (Texts t) d) : RunsOn t taken c' d := by
  induction hreads using Reads.run_induction generalizing d with
  | @stop c hgoes hp =>
    obtain ⟨h, hh, hjoins⟩ := exists_hold_of_texts hcd
    have hindent : c.next.kind ≠ .indent := by
      intro hindent
      rw [hindent] at hp
      cases hp
    cases hjoins.fork with
    | same hsame => exact (Reads.stop hgoes hp).runsOn_of_same hsame
    | both hrest hrest' htoken hfits htake =>
      rw [Hold.after_eq_free (.inr hh) hp] at htake
      have hlevel := htake.level_of_take hrest hrest' htoken hindent
      exact runsOn_of_stop (hlevel.past t) (by rwa [Lexeme.kind, htoken])
    | blank hx hb hfits _ _ _ hsame =>
      rcases hh with rfl | rfl
      · exact ((Reads.stop hgoes hp).runsOn_of_same hsame).blank (congrArg Token.kind hx)
      · have hd : d.next.kind = .newline := congrArg Token.kind hx
        exact runsOn_of_stop ((hsame.trails hd).past t) (by rw [hd]; rfl)
  | @more c c' taken hp heos hreads ih =>
    obtain ⟨h, hh, hjoins⟩ := exists_hold_of_texts hcd
    cases hjoins.fork with
    | same hsame => exact (Reads.more hp heos hreads).runsOn_of_same hsame
    | both hrest hrest' htoken hfits htake =>
      have hkind : d.next.kind = c.next.kind := congrArg Token.kind htoken
      rw [Hold.after_textual hh hp] at htake
      have htexts : c.take.Ahead (Texts t) d.take := by
        refine htake.mono fun _ _ hinserts => ?_
        rcases hh with rfl | rfl
        · exact .inl (.inr hinserts)
        · exact .inr (.inr hinserts)
      obtain ⟨taken', d', hd', htokens, h'⟩ := ih htexts
      exact ⟨d.next :: taken', d', .more (by rwa [hkind]) (by rwa [hkind]) hd',
        .prose_cons htoken htokens, h'⟩
    | blank hx hb hfits _ _ hloose hsame =>
      rcases hh with rfl | rfl
      · exact ((Reads.more hp heos hreads).runsOn_of_same hsame).blank (congrArg Token.kind hx)
      · -- The text ends with the indent, which the second reading leaves behind its newline.
        have hd : d.next.kind = .newline := congrArg Token.kind hx
        have hindent : c.next.kind = .indent := by
          rcases hb with hb | hb | hb
          · rw [hb] at hp
            cases hp
          · exact hb
          · rw [hb] at hp
            cases hp
        obtain ⟨rfl, htext⟩ := hloose t rfl hindent
        have hstarts := Cursor.kind_of_starts hfits hindent
        have hlags : c.take.Ahead (Past false) d :=
          hsame.same.2.lags hd (hsame.kind.trans hindent)
        have hstop : isTextual c.take.next.kind = false := by
          cases hkind : c.take.next.kind <;> simp_all [isTextual]
        obtain ⟨rfl, rfl⟩ := hreads.run_nil hstop
        refine ⟨[], d.seen, .stop hlags.goes.2 (by rw [hd]; rfl), ?_, hlags.seen⟩
        rw [prose_cons_of_ne (hindent.trans_ne (by decide))]
        rfl

/-- Texts are read in the same way. -/
theorem Reads.copies_text {text : Text} (hreads : Reads .text c text c')
    (hcd : isTextual c.next.kind = true → c.Ahead (Texts t) d ∧ isTextual d.next.kind = true) :
    Phrase.text.Copies Text.unlined (Cursor.Ahead (Past t)) d text c' := by
  cases hreads with
  | text hkind hreads =>
    obtain ⟨htexts, hkind'⟩ := hcd hkind
    obtain ⟨taken', d', hd', htokens, h'⟩ := hreads.runsOn htexts.seen
    refine ⟨_, d', .text hkind' hd', ?_, h'⟩
    rw [← foldl_addTo_prose, ← foldl_addTo_prose _ { line := c.line }]
    exact foldl_eq_of_tokens unlined_addTo htokens rfl

/-- The text of a region is read in the same way. -/
theorem Reads.copies_text_of_open {text : Text} (hreads : Reads .text c text c')
    (hcd : c.Ahead (Joins h) d) (hopen : h.isOpen = true) :
    Phrase.text.Copies Text.unlined (Cursor.Ahead Level) d text c' := by
  obtain ⟨text', d', hd', htext, h'⟩ := hreads.copies_text (t := true) (hcd.texts hopen)
  exact ⟨text', d', hd', htext, h'.level_of_past⟩

theorem Reads.copies_filter {name : String} {line : Nat} (line' : Nat) {f : Filter}
    (hreads : Reads (.filter name line) c f c') (hcd : c.Ahead (Joins .filter) d) :
    (Phrase.filter name line').Copies Filter.shown (Cursor.Ahead Level) d f c' := by
  -- An attribute list comes next in both readings or in none.
  cases hreads with
  | filterList htoken hreads =>
    have hkind : c.next.kind = .attributes := congrArg Token.kind htoken
    obtain ⟨htoken', htake⟩ : d.next.token = c.next.token ∧
        c.take.Ahead (Joins (Hold.filter.after c.next.token)) d.take := by
      cases hcd.fork with
      | same hsame => exact ⟨hsame.same.1, hsame.same.2.joins _⟩
      | both _ _ htoken _ htake => exact ⟨htoken, htake.mono fun _ _ => .inr⟩
      | blank _ hb =>
        rw [hkind] at hb
        simp at hb
    rw [htoken] at htake
    obtain ⟨text', d', hd', htext, h'⟩ := hreads.copies_text_of_open htake rfl
    exact ⟨_, d', .filterList (htoken'.trans htoken) hd', Filter.shown_eq_of_text htext _ _ _ _, h'⟩
  | filterText hgoes hkind hreads =>
    have hkind' : d.next.kind ≠ .attributes := by
      rcases hcd.kind_or_indent rfl with hd | hd
      · rwa [hd]
      · rw [hd]
        decide
    obtain ⟨text', d', hd', htext, h'⟩ := hreads.copies_text_of_open hcd.seen rfl
    exact ⟨_, d', .filterText hcd.goes.2 hkind' hd', Filter.shown_eq_of_text htext _ _ _ _, h'⟩

/-! ### Hidden code and comments -/

/-- No blank line stands behind a region that was ended. -/
theorem token_of_broken (hcd : c.Ahead (Inserts (.broken t)) d) : d.next.token = c.next.token := by
  have hjoins : c.Ahead (Joins (.broken t)) d := hcd.mono fun _ _ => .inr
  cases hjoins.fork with
  | same hsame => exact hsame.same.1
  | both _ _ htoken => exact htoken
  | blank _ _ _ hbroken => exact absurd rfl (hbroken t)

/-- Text behind a region that was ended is taken in both readings. -/
theorem texts_of_broken (hcd : c.Ahead (Inserts (.broken t)) d) (hindent : c.next.kind ≠ .indent)
    (hc : isTextual c.next.kind = true) : c.Ahead (Texts t) d ∧ isTextual d.next.kind = true := by
  refine ⟨⟨.inr (.inr ?_), hcd.left, hcd.right⟩, ?_⟩
  · have hrests := hcd.rests
    have htext : c.next.kind = .text := by
      cases hkind : c.next.kind <;> simp_all [isTextual]
    rw [Cursor.rest_eq_of_next (c := c) (by rw [htext]; decide)] at hrests ⊢
    exact hrests.toLoose htext
  · rwa [Lexeme.kind, token_of_broken hcd]

/-- Hidden code takes the same text below it, whether it is in its region or not. -/
theorem Reads.newlines_of_code
    (hreads : Reads (.run (· = .newline)) c taken c') (hcd : c.Ahead (Joins (.code t)) d) :
    ∃ taken' d', Reads (.run (· = .newline)) d taken' d' ∧ (isTextual c'.next.kind = true →
      c'.Ahead (Texts t) d' ∧ isTextual d'.next.kind = true) := by
  cases hreads with
  | stop hgoes hp =>
    have hp' : d.next.kind ≠ .newline := by
      rcases hcd.kind_or_indent rfl with hd | hd
      · rw [hd]
        exact of_decide_eq_false hp
      · rw [hd]
        decide
    refine ⟨[], d.seen, .stop hcd.goes.2 (decide_eq_false hp'), fun hc => ?_⟩
    rw [Cursor.next_seen] at hc ⊢
    obtain ⟨htexts, hd⟩ := hcd.texts rfl hc
    exact ⟨htexts.seen, hd⟩
  | more hp heos hreads =>
    have hnewline : c.next.kind = .newline := of_decide_eq_true hp
    cases hcd.fork with
    | same hsame =>
      obtain ⟨taken', d', hd', -, hsame'⟩ := (Reads.more hp heos hreads).same_run hsame
      refine ⟨taken', d', hd', fun hc => ⟨hsame'.mono fun _ _ h => .inl (.inl h), ?_⟩⟩
      rwa [hsame'.kind]
    | both _ _ htoken hfits htake =>
      have hstarts := Cursor.kind_of_starts hfits hnewline
      rw [c.next.token_of_newline hnewline] at htake
      have hkind : d.next.kind = .newline := (congrArg Token.kind htoken).trans hnewline
      have hstop : d.take.next.kind ≠ .newline := by
        rw [Lexeme.kind, token_of_broken htake]
        exact hstarts.1
      obtain ⟨rfl, rfl⟩ := hreads.run_nil (decide_eq_false hstarts.1)
      refine ⟨[d.next], d.take.seen, .more (decide_eq_true hkind) (hkind.trans_ne nofun)
        (.stop htake.goes.2 (decide_eq_false hstop)), fun ht => ?_⟩
      rw [Cursor.next_seen] at ht ⊢
      obtain ⟨htexts, hd⟩ := texts_of_broken htake hstarts.2 ht
      exact ⟨htexts.seen, hd⟩
    | blank hx _ hfits _ hcode =>
      have hstarts := Cursor.kind_of_starts hfits hnewline
      have hkind : d.next.kind = .indent := congrArg Token.kind hx
      obtain ⟨rfl, rfl⟩ := hreads.run_nil (decide_eq_false hstarts.1)
      refine ⟨[], d.seen, .stop hcd.goes.2 (by rw [hkind]; rfl), fun ht => ?_⟩
      -- A line of text would be severed.
      rw [Cursor.next_seen] at ht
      have htext := hcode t rfl hnewline
      cases hkind : c.take.next.kind <;> simp_all [isTextual]

/-- A blank line by itself is a text without lines. -/
theorem exists_reads_blank (hd : d.failure = none) (hx : d.next.kind = .indent)
    (hstop : isTextual d.take.next.kind = false) : ∃ text, Reads .text d text d.take.seen := by
  have hx' : isTextual d.next.kind = true := by rw [hx]; rfl
  have hrun : Reads (.run isTextual) d.seen [d.seen.next] d.take.seen := by
    refine .more (by rwa [Cursor.next_seen]) (by rw [Cursor.next_seen, hx]; nofun) ?_
    rw [Cursor.take_seen]
    exact .stop (fun _ => hd) hstop
  exact ⟨_, .text hx' hrun⟩

section

variable {head head' : Remark} (hhead : head'.unlined = head.unlined)
  (hhidden : head.buffered = false)

include hhead hhidden

theorem buffered_hidden : head'.buffered = false :=
  (congrArg Remark.buffered hhead).trans hhidden

/-- Text below a hidden comment is read in both readings: a blank line in front of it would be
an indent, as the text has one. -/
theorem Reads.shows_commentText {newlines : List Lexeme} {c₁ : Cursor} {text : Text}
    (hnewlines : Reads (.run (· = .newline)) c newlines c₁) (hkind : c₁.next.kind = .indent)
    (htext : Reads .text c₁ text c') (hcd : c.Ahead (Joins .comment) d) :
    (Phrase.comment head').Copies Comment.shown (Cursor.Ahead Level) d
      ⟨head, some { line := head.line, children := [.text text] }⟩ c' := by
  have hfinish : ∀ {h : Hold} {newlines' : List Lexeme} {d₁ : Cursor},
      Reads (.run (· = .newline)) d newlines' d₁ → c₁.Ahead (Joins h) d₁ → h.isOpen = true →
      d₁.next.kind = .indent → (Phrase.comment head').Copies Comment.shown (Cursor.Ahead Level) d
        ⟨head, some { line := head.line, children := [.text text] }⟩ c' := by
    intro h newlines' d₁ hnewlines' h₁ hopen hkind'
    obtain ⟨text', d', htext', -, h'⟩ := htext.copies_text_of_open h₁ hopen
    exact ⟨_, d', .commentText (buffered_hidden hhead hhidden) hnewlines' hkind' htext',
      Comment.shown_eq_of_hidden hhidden hhead _ _, h'⟩
  have hstop : c.next.kind = .newline → ¬Hold.comment.Fits c.next c.take.rest := by
    intro hnewline hfits
    have hstarts := Cursor.kind_of_starts hfits hnewline
    cases hnewlines with
    | stop _ hp => exact absurd hnewline (of_decide_eq_false hp)
    | more _ _ hreads =>
      obtain ⟨-, rfl⟩ := hreads.run_nil (decide_eq_false hstarts.1)
      exact hstarts.2 (by rwa [Cursor.next_seen] at hkind)
  cases hcd.fork with
  | same hsame =>
    obtain ⟨newlines', d₁, hnewlines', -, hsame'⟩ := hnewlines.same_run hsame
    exact hfinish hnewlines' (hsame'.joins .region) rfl (hsame'.kind.trans hkind)
  | both _ _ htoken hfits _ =>
    have hne : c.next.kind ≠ .newline := fun hnewline => hstop hnewline hfits
    obtain ⟨-, rfl⟩ := hnewlines.run_nil (decide_eq_false hne)
    have hkind' : d.next.kind = c.next.kind := congrArg Token.kind htoken
    rw [Cursor.next_seen, ← hkind'] at hkind
    exact hfinish (.stop hcd.goes.2 (by rw [hkind]; rfl)) hcd.seen rfl (by rwa [Cursor.next_seen])
  | blank hx hb hfits =>
    have hne : c.next.kind ≠ .newline := fun hnewline => hstop hnewline hfits
    obtain ⟨-, rfl⟩ := hnewlines.run_nil (decide_eq_false hne)
    have hd : d.next.kind = .indent := congrArg Token.kind hx
    exact hfinish (.stop hcd.goes.2 (by rw [hd]; rfl)) hcd.seen rfl (by rwa [Cursor.next_seen])

/-- Where there is no text below a hidden comment, there is none in the second reading, or the
blank line is an empty text. -/
theorem Reads.shows_commentNone {newlines : List Lexeme}
    (hnewlines : Reads (.run (· = .newline)) c newlines c') (hkind : c'.next.kind ≠ .indent)
    (hcd : c.Ahead (Joins .comment) d) :
    (Phrase.comment head').Copies Comment.shown (Cursor.Ahead Level) d ⟨head, none⟩ c' := by
  have hnone : ∀ {newlines' : List Lexeme} {d' : Cursor},
      Reads (.run (· = .newline)) d newlines' d' → c'.Ahead Level d' → d'.next.kind ≠ .indent →
      (Phrase.comment head').Copies Comment.shown (Cursor.Ahead Level) d ⟨head, none⟩ c' :=
    fun hnewlines' h' hkind' =>
      ⟨_, _, .commentNone (buffered_hidden hhead hhidden) hnewlines' hkind',
        Comment.shown_eq_of_hidden hhidden hhead _ _, h'⟩
  cases hcd.fork with
  | same hsame =>
    obtain ⟨newlines', d', hnewlines', -, hsame'⟩ := hnewlines.same_run hsame
    exact hnone hnewlines' (hsame'.joins .free).level (by rwa [hsame'.kind])
  | both hrest hrest' htoken hfits htake =>
    have hkind' : d.next.kind = c.next.kind := congrArg Token.kind htoken
    cases hnewlines with
    | stop _ hp =>
      -- The comment is the last line of a block, or of the template.
      rw [Cursor.next_seen] at hkind
      have hc : isTextual c.next.kind = false := by
        have hinline := hfits.line rfl
        cases hc : c.next.kind <;> simp_all [isTextual, Token.Kind.isInline]
      rw [Hold.after_eq_free (h := .comment) (t := false) (.inl rfl) hc] at htake
      have hlevel := htake.level_of_take hrest hrest' htoken hkind
      exact hnone (.stop hcd.goes.2 (by rwa [hkind'])) hlevel.seen
        (by rwa [Cursor.next_seen, hkind'])
    | more hp heos hreads =>
      rw [c.next.token_of_newline (of_decide_eq_true hp)] at htake
      have hlevel : c.take.Ahead Level d.take := htake.mono fun _ _ h => .inl (.inr h)
      obtain ⟨newlines', d', hnewlines', hmeets⟩ := hreads.meets_newlines hlevel
      exact hnone (.more (by rwa [hkind']) (by rwa [hkind']) hnewlines') hmeets.here.level
        (by rwa [hmeets.kind])
  | blank hx hb hfits _ _ _ hsame =>
    have hd : d.next.kind = .indent := congrArg Token.kind hx
    have hd₁ : Reads (.run (· = .newline)) d [] d.seen := .stop hcd.goes.2 (by rw [hd]; rfl)
    have hblank : isTextual c.next.kind = false → c'.Ahead Level d.take.seen →
        (Phrase.comment head').Copies Comment.shown (Cursor.Ahead Level) d ⟨head, none⟩ c' := by
      intro hstop h'
      obtain ⟨text, htext⟩ := exists_reads_blank (d := d.seen) hcd.right
        (by rwa [Cursor.next_seen]) (by rwa [Cursor.take_seen, hsame.kind])
      rw [Cursor.take_seen] at htext
      exact ⟨_, _, .commentText (buffered_hidden hhead hhidden) hd₁ (by rwa [Cursor.next_seen])
        htext, Comment.shown_eq_of_hidden hhidden hhead _ _, h'⟩
    cases hnewlines with
    | stop _ hp =>
      rw [Cursor.next_seen] at hkind
      refine hblank ?_ (hsame.joins .free).level.seen
      cases hc : c.next.kind <;> simp_all [isTextual]
    | more hp _ hreads =>
      have hnewline : c.next.kind = .newline := of_decide_eq_true hp
      have hstarts := Cursor.kind_of_starts hfits hnewline
      obtain ⟨-, rfl⟩ := hreads.run_nil (decide_eq_false hstarts.1)
      refine hblank (by rw [hnewline]; rfl) (Cursor.Ahead.seen ?_)
      exact hsame.same.2.trails (hsame.kind.trans hnewline)

end

/-! ### Nodes and blocks -/

/-- Between nodes, a newline or an indent more is dropped, and then the cursors meet. -/
theorem Cursor.Ahead.catchUp (hcd : c.Ahead (Past false) d) :
    ∃ d₁, c.Meets .free d₁ ∧ ∀ ns d', Reads .nodes d₁ ns d' → Reads .nodes d ns d' := by
  rcases hcd.level_or_lags with hlevel | ⟨-, hd, hd', hsame⟩
  · rcases hlevel.meets_or with hmeets | ⟨hd, hsame⟩
    · exact ⟨d, hmeets, fun _ _ hreads => hreads⟩
    · exact ⟨d.take, hsame.meets .free, fun _ _ hreads => .newline hd hreads⟩
  · refine ⟨d.take.take, hsame.meets .free, fun _ _ hreads => .newline hd ?_⟩
    have hindent : d.take.seen.next.token = .indent := by
      rw [Cursor.next_seen]
      exact Lexeme.token_of_indent hd'
    exact .cons (.indent hindent) (by rwa [Cursor.take_seen])

/-- What is read at the first cursor is read at the second one and shows the same. Behind nodes
the cursors have met. -/
def Phrase.ShowsAlike : (p : Phrase) → Cursor → p.Value → Cursor → Prop
  | node, c, n, c' => ∀ d, c.Meets .free d →
    node.Copies (Option.map Node.shown) (Cursor.Ahead (Past false)) d n c'
  | tag e, c, t, c' => ∀ e' d, e'.unlined = e.unlined → c.Ahead (Joins .tagged) d →
    (tag e').Copies Tag.shown (Cursor.Ahead Level) d t c'
  | inline, c, x, c' => ∀ d, c.Ahead (Joins .tagged) d →
    inline.Copies (Prod.map (Option.map Text.unlined) (Option.map Code.shown))
      (Cursor.Ahead Level) d x c'
  | code head, c, x, c' => ∀ t head' d, head'.unlined = head.unlined →
    c.Ahead (Joins (if head.verbatim then .code t else .free)) d →
    (code head').Copies Code.shown (Cursor.Ahead (Past t)) d x c'
  | comment head, c, x, c' => ∀ head' d, head'.unlined = head.unlined →
    c.Ahead (Joins (if head.buffered then .free else .comment)) d →
    (comment head').Copies Comment.shown (Cursor.Ahead Level) d x c'
  | below, c, block, c' => ∀ d, c.Meets .free d →
    below.Copies (Option.map Block.shown) (Cursor.Ahead Level) d block c'
  | nodes, c, ns, c' => ∀ d, c.Ahead (Past false) d →
    nodes.Copies (List.map Node.shown) (Cursor.Meets .free) d ns c'
  | _, _, _, _ => True

/-- Everything is read in both readings and shows the same. The induction follows the reading
without the blank line. -/
theorem Reads.showsAlike {p : Phrase} {c c' : Cursor} {a : p.Value} (hreads : Reads p c a c') :
    p.ShowsAlike c a c' := by
  induction hreads with
  | stop | more | text | filterList | filterText | document | outdent => trivial
  | @element c c' name t htoken _ ih =>
    intro d hcd
    have htake := hcd.take
    rw [htoken] at htake
    obtain ⟨t', d', hd', ht, h'⟩ := ih (.ofName name d.next.line) d.take rfl htake
    refine ⟨some (.tag t'), d', .element (hcd.token.trans htoken) hd', ?_, h'.past false⟩
    show some (Node.tag t'.shown) = some (Node.tag t.shown)
    rw [ht]
  | @shorthand c c' t hkind _ ih =>
    intro d hcd
    have htake := hcd.take
    rw [Hold.free_after_of_shorthand hkind] at htake
    obtain ⟨t', d', hd', ht, h'⟩ := ih (mark (.ofName "div" d.next.line) d.next) d.take
      (unlined_mark rfl hcd.token) htake
    refine ⟨some (.tag t'), d', .shorthand (by rwa [hcd.kind]) hd', ?_, h'.past false⟩
    show some (Node.tag t'.shown) = some (Node.tag t.shown)
    rw [ht]
  | doctype htoken =>
    intro d hcd
    have htake := hcd.take
    rw [htoken] at htake
    exact ⟨_, d.take, .doctype (hcd.token.trans htoken), rfl, htake.level.past false⟩
  | @filter c c' name f htoken hreads =>
    intro d hcd
    have htake := hcd.take
    rw [htoken] at htake
    obtain ⟨f', d', hd', hf, h'⟩ := hreads.copies_filter d.next.line htake
    refine ⟨some (.filter f'), d', .filter (hcd.token.trans htoken) hd', ?_, h'.past false⟩
    show some (Node.filter f'.shown) = some (Node.filter f.shown)
    rw [hf]
  | @pipe c c' text htoken hreads =>
    intro d hcd
    have htake := hcd.take
    rw [htoken] at htake
    obtain ⟨text', d', hd', htext, h'⟩ := hreads.copies_text_of_open htake rfl
    refine ⟨some (.text text'), d', .pipe (hcd.token.trans htoken) hd', ?_, h'.past false⟩
    show some (Node.text text'.unlined) = some (Node.text text.unlined)
    rw [htext]
  | @comment c c' body buffered x htoken _ ih =>
    intro d hcd
    have htake := hcd.take
    rw [htoken] at htake
    obtain ⟨x', d', hd', hx, h'⟩ :=
      ih ⟨d.next.line, Character.trimSpaces body, buffered⟩ d.take rfl
        (by cases buffered <;> exact htake)
    refine ⟨some (.comment x'), d', .comment (hcd.token.trans htoken) hd', ?_, h'.past false⟩
    show some (Node.comment x'.shown) = some (Node.comment x.shown)
    rw [hx]
  | words htoken =>
    intro d hcd
    have htake := hcd.take
    rw [htoken] at htake
    exact ⟨_, d.take, .words (hcd.token.trans htoken), rfl, htake.level.past false⟩
  | @code c c' expression buffered x htoken _ ih =>
    intro d hcd
    have htake := hcd.take
    rw [htoken] at htake
    obtain ⟨x', d', hd', hx, h'⟩ :=
      ih false (Grammar.statement d.next.line expression buffered) d.take rfl htake
    refine ⟨some (.code x'), d', .code (hcd.token.trans htoken) hd', ?_, h'⟩
    show some (Node.code x'.shown) = some (Node.code x.shown)
    rw [hx]
  | indent htoken =>
    intro d hcd
    have htake := hcd.take
    rw [htoken] at htake
    exact ⟨none, d.take, .indent (hcd.token.trans htoken), rfl, htake.level.past false⟩
  | @tag e c c₁ c₂ c₃ c' marks _ text code block hmarks _ hnewlines _ _ ihinline _ ihbelow =>
    intro e' d he hcd
    obtain ⟨marks', d₁, hmarks', htokens, h₁⟩ := hmarks.same_marks hcd
    obtain ⟨⟨text', code'⟩, d₂, hinline', hline, h₂⟩ := ihinline d₁ h₁
    obtain ⟨_, d₃, hnewlines', h₃⟩ := hnewlines.meets_newlines h₂
    obtain ⟨block', d', hbelow', hblock, h'⟩ := ihbelow d₃ h₃
    refine ⟨_, d', .tag hmarks' hinline' hnewlines' hbelow', ?_, h'⟩
    obtain ⟨htext, hcode⟩ := Prod.mk.inj hline
    have helement := foldl_eq_of_tokens unlined_mark htokens he
    exact shown_eq_of_parts helement htext hcode hblock (by rw [h₃.kind]) _ _
  | @inlineText c value htoken =>
    intro d hcd
    have hkind : c.next.kind = .text := congrArg Token.kind htoken
    have hmeets := hcd.meets_of_inline rfl (by rw [hkind]; rfl)
    have htake := hmeets.take
    rw [htoken] at htake
    exact ⟨_, d.take, .inlineText (hmeets.token.trans htoken), rfl, Cursor.Ahead.level htake⟩
  | @inlineCode c c' expression buffered x htoken _ ih =>
    intro d hcd
    have hkind : c.next.kind = .code := congrArg Token.kind htoken
    have hmeets := hcd.meets_of_inline rfl (by rw [hkind]; rfl)
    have htake := hmeets.take
    rw [htoken] at htake
    obtain ⟨x', d', hd', hx, h'⟩ :=
      ih true (Grammar.statement d.next.line expression buffered) d.take rfl htake
    refine ⟨(none, some x'), d', .inlineCode (hmeets.token.trans htoken) hd', ?_,
      h'.level_of_past⟩
    show (none, some x'.shown) = (none, some x.shown)
    rw [hx]
  | @inlineNone c htext hcode =>
    intro d hcd
    have hkind : d.next.kind = c.next.kind ∨ d.next.kind = .newline :=
      (hcd.meets_or_break rfl).imp Cursor.Meets.kind And.left
    have htext' : d.next.kind ≠ .text := by
      rcases hkind with hd | hd <;> rw [hd]
      · exact htext
      · nofun
    have hcode' : d.next.kind ≠ .code := by
      rcases hkind with hd | hd <;> rw [hd]
      · exact hcode
      · nofun
    exact ⟨(none, none), d, .inlineNone htext' hcode', rfl, (hcd.untagged hcode).level⟩
  | codeText hverbatim hnewlines htext =>
    intro t head' d hhead hcd
    have hverbatim' : head'.verbatim = true :=
      (congrArg Statement.verbatim hhead).trans hverbatim
    rw [hverbatim] at hcd
    obtain ⟨_, d₁, hnewlines', h₁⟩ := hnewlines.newlines_of_code hcd
    obtain ⟨text', d', htext', heq, h'⟩ := htext.copies_text h₁
    exact ⟨_, d', .codeText hverbatim' hnewlines' htext', Code.shown_eq_of_text hhead heq _ _, h'⟩
  | codeBlock hverbatim hnewlines _ _ ih =>
    intro t head' d hhead hcd
    have hverbatim' : head'.verbatim = false :=
      (congrArg Statement.verbatim hhead).trans hverbatim
    rw [hverbatim] at hcd
    obtain ⟨_, d₁, hnewlines', h₁⟩ := hnewlines.meets_newlines (Cursor.Ahead.level hcd)
    obtain ⟨block', d', hbelow', hblock, h'⟩ := ih d₁ h₁
    refine ⟨_, d', .codeBlock hverbatim' hnewlines' hbelow', ?_, h'.past t⟩
    rw [Code.shown_mk, Code.shown_mk, hhead, hblock]
  | commentBlock hbuffered hnewlines _ _ ih =>
    intro head' d hhead hcd
    have hbuffered' : head'.buffered = true := (congrArg Remark.buffered hhead).trans hbuffered
    rw [hbuffered] at hcd
    obtain ⟨_, d₁, hnewlines', h₁⟩ := hnewlines.meets_newlines (Cursor.Ahead.level hcd)
    obtain ⟨block', d', hbelow', hblock, h'⟩ := ih d₁ h₁
    refine ⟨_, d', .commentBlock hbuffered' hnewlines' hbelow', ?_, h'⟩
    rw [Comment.shown_of_buffered hbuffered, Comment.shown_of_buffered hbuffered', hhead, hblock]
  | commentText hbuffered hnewlines hkind htext =>
    intro head' d hhead hcd
    rw [hbuffered] at hcd
    exact Reads.shows_commentText hhead hbuffered hnewlines hkind htext hcd
  | commentNone hbuffered hnewlines hkind =>
    intro head' d hhead hcd
    rw [hbuffered] at hcd
    exact Reads.shows_commentNone hhead hbuffered hnewlines hkind hcd
  | @block c c' children hkind hreads ih =>
    intro d hcd
    have htake := hcd.take_free (by rw [hkind]; rfl)
    obtain ⟨children', d', hd', hview, hmeets⟩ := ih d.take (htake.level.past false)
    have hclosed : c'.next.kind.isPlain = true := by
      rcases hreads.halts.2 with hkind | hkind <;> rw [hkind] <;> rfl
    have hclose := hmeets.take_free hclosed
    refine ⟨some ⟨d.next.line, children'⟩, d'.close d.place, .block (hcd.kind.trans hkind) hd', ?_,
      .inl hclose.rests, hclose.left, hclose.right⟩
    rw [Option.map_some, Option.map_some, Block.shown_mk, Block.shown_mk, hview]
  | noBlock hkind =>
    intro d hcd
    exact ⟨none, d, .noBlock (by rwa [hcd.kind]), rfl, hcd.here.level⟩
  | nil hgoes hkind =>
    intro d hcd
    obtain ⟨d₁, hmeets, hcatch⟩ := hcd.catchUp
    exact ⟨[], d₁.seen, hcatch _ _ (.nil hmeets.here.goes.2 (by rwa [hmeets.kind])), rfl,
      hmeets.seen⟩
  | newline hkind _ ih =>
    intro d hcd
    obtain ⟨d₁, hmeets, hcatch⟩ := hcd.catchUp
    have htake := hmeets.take_free (by rw [hkind]; rfl)
    obtain ⟨ns', d', hd', hview, h'⟩ := ih d₁.take (htake.level.past false)
    exact ⟨ns', d', hcatch _ _ (.newline (hmeets.kind.trans hkind) hd'), hview, h'⟩
  | cons hfirst hothers ihfirst ihothers =>
    intro d hcd
    obtain ⟨d₁, hmeets, hcatch⟩ := hcd.catchUp
    obtain ⟨first', d₂, hfirst', hview, h₂⟩ := ihfirst d₁.seen hmeets.seen
    obtain ⟨others', d', hothers', heq, h'⟩ := ihothers d₂ h₂
    refine ⟨first'.toList ++ others', d', hcatch _ _ (.cons hfirst' hothers'), ?_, h'⟩
    rw [List.map_append, List.map_append, heq, map_toList_eq hview]

/-- Documents are read in the same way, but for what they do not show. -/
theorem Reads.shows_document {ns : List Node} (hreads : Reads .document c ns c')
    (hcd : c.Ahead (Past false) d) :
    ∃ ns' d', Reads .document d ns' d' ∧ ns'.map Node.shown = ns.map Node.shown := by
  induction hreads using Reads.document_induction generalizing d with
  | document hnodes hkind =>
    obtain ⟨ns', d', hd', hview, hmeets⟩ := hnodes.showsAlike d hcd
    exact ⟨ns', d', .document hd' (hmeets.kind.trans hkind), hview⟩
  | @outdent c c₁ c' ns others hnodes hkind hothers ih =>
    obtain ⟨ns', d₁, hd₁, hview, hmeets⟩ := hnodes.showsAlike d hcd
    have htake := hmeets.take_free (by rw [hnodes.halts.2.resolve_right hkind]; rfl)
    obtain ⟨others', d', hd', heq⟩ := ih (htake.level.past false)
    refine ⟨ns' ++ others', d', .outdent hd₁ (by rwa [hmeets.kind]) hd', ?_⟩
    rw [List.map_append, List.map_append, hview, heq]

/-- A blank line more changes nothing that a document shows. -/
theorem gives_document_blank {xs : List Node} (hls : Joins .free ls ls')
    (hxs : (document { rest := ls }).Gives xs c') :
    ∃ ys d', (document { rest := ls' }).Gives ys d' ∧ ys.map Node.shown = xs.map Node.shown := by
  have hcd : Cursor.Ahead (Past false) { rest := ls } { rest := ls' } :=
    ⟨.inl (.inl hls), rfl, rfl⟩
  have hreads : Reads .document { rest := ls } xs c' := .of_gives trivial hxs
  obtain ⟨ys, d', hys, hview⟩ := hreads.shows_document hcd
  exact ⟨ys, d', hys.gives, hview⟩

end Offside.Reading
