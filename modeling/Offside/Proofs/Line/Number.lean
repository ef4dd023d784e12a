import Offside.Proofs.Document.Refinement
import Offside.Proofs.Line.Position

/-!
# The numbers of lines

Tokens and errors are numbered by the lines of the text that is scanned, which starts at the
first character of the source that is no margin. So their lines are those of the source less
the line breaks in front of that character (`Source.lead`).

A point of the text that is scanned lies on a line of the source (`Source.OnLine`), which is
found by counting the line breaks in front of the point and the ones that were trimmed
(`Source.onLine_count`); unless there is nothing to scan, it lies on no other line
(`Source.OnLine.eq_count`). The number of a lexeme counts the line breaks up to the end of the
text it was read from (`Scanner.Emits.line_eq`).
-/

set_option autoImplicit false

namespace Offside

open Offside.Character

namespace Source

variable {layout : Layout} {source : String} {number : Nat} {done rest : List Char}

/-- Lines that another line follows. -/
def above (ls : List (List Char)) : List Char :=
  ls.flatMap (· ++ ['\n'])

/-- A point of the text that is scanned lies on a line of the source: the line can be cut
so that `done` is what stands in front of the cut and `rest` what stands behind it, up to the
margin at the ends. -/
def OnLine (layout : Layout) (source : String) (number : Nat) (done rest : List Char) : Prop :=
  ∃ ls line ls' front back, lines source = ls ++ line :: ls' ∧ number = ls.length + 1 ∧
    expandTabs layout line = front ++ back ∧
    done = (above (ls.map (expandTabs layout)) ++ front).dropWhile isMargin ∧
    rest = trimEnd isMargin (back ++ below (ls'.map (expandTabs layout)))

/-- The line breaks in front of the first character that is no margin. -/
def lead (source : String) : Nat :=
  ((unifyBreaks source.toList).takeWhile isMargin).count '\n'

/-! ### Cutting a text -/

theorem above_cons (l : List Char) (ls : List (List Char)) :
    above (l :: ls) = l ++ '\n' :: above ls := by
  simp [above]

theorem unlines_eq_above (ls : List (List Char)) (line : List Char) (ls' : List (List Char)) :
    unlines (ls ++ line :: ls') = above ls ++ (line ++ below ls') := by
  induction ls with
  | nil => exact unlines_cons line ls'
  | cons l ls ih =>
    have hne : ls ++ line :: ls' ≠ [] := by simp
    obtain ⟨l', ls'', hls⟩ := List.exists_cons_of_ne_nil hne
    rw [hls, unlines_cons] at ih
    rw [List.cons_append, hls, unlines_cons, below_cons, above_cons, ih]
    simp

/-- A text is cut inside of one of its lines. -/
theorem exists_line_of_unlines {ls : List (List Char)} (hls : ls ≠ []) {xs ys : List Char}
    (h : unlines ls = xs ++ ys) :
    ∃ ls₁ line ls₂ front back, ls = ls₁ ++ line :: ls₂ ∧ line = front ++ back ∧
      xs = above ls₁ ++ front ∧ ys = back ++ below ls₂ := by
  induction ls generalizing xs with
  | nil => exact absurd rfl hls
  | cons l ls ih =>
    rw [unlines_cons] at h
    rcases List.append_eq_append_iff.1 h with ⟨zs, rfl, hzs⟩ | ⟨back, rfl, hys⟩
    · cases zs with
      | nil => exact ⟨[], l, ls, l, [], rfl, by simp, by simp [above], by simpa using hzs.symm⟩
      | cons c zs =>
        -- The cut is behind the line break, so it is in one of the lines that follow.
        cases ls with
        | nil => cases hzs
        | cons l' ls =>
          rw [below_cons, List.cons_append, ← unlines_cons] at hzs
          obtain ⟨rfl, htail⟩ := List.cons.inj hzs
          obtain ⟨ls₁, line, ls₂, front, back, hls, hline, rfl, hys⟩ :=
            ih (List.cons_ne_nil l' ls) htail
          refine ⟨l :: ls₁, line, ls₂, front, back, by rw [hls]; rfl, hline, ?_, hys⟩
          rw [above_cons]
          simp
    · exact ⟨[], _, ls, xs, back, rfl, rfl, rfl, hys⟩

theorem count_above {ls : List (List Char)} (h : ∀ l ∈ ls, '\n' ∉ l) :
    (above ls).count '\n' = ls.length := by
  induction ls with
  | nil => rfl
  | cons l ls ih =>
    have hl : l.count '\n' = 0 := List.count_eq_zero_of_not_mem (h l List.mem_cons_self)
    rw [above_cons, List.count_append, List.count_cons_self, hl,
      ih fun l' hl' => h l' (List.mem_cons_of_mem l hl'), List.length_cons]
    omega

theorem not_mem_expandTabs {l : List Char} (h : '\n' ∉ l) : '\n' ∉ expandTabs layout l := by
  intro hmem
  obtain ⟨c, hc, hexpand⟩ := List.mem_flatMap.1 hmem
  split at hexpand
  · exact absurd (List.eq_of_mem_replicate hexpand) (by decide)
  · exact h (List.mem_singleton.1 hexpand ▸ hc)

/-- Tabs are margin before they are expanded and after. -/
theorem count_takeWhile_expandTabs (layout : Layout) (cs : List Char) :
    ((expandTabs layout cs).takeWhile isMargin).count '\n' =
      (cs.takeWhile isMargin).count '\n' := by
  induction cs with
  | nil => rfl
  | cons c cs ih =>
    by_cases htab : c = '\t'
    · have hcons : expandTabs layout (c :: cs) =
          List.replicate layout.tabWidth ' ' ++ expandTabs layout cs := by
        simp [expandTabs, htab]
      have hspaces : ∀ d ∈ List.replicate layout.tabWidth ' ', isMargin d = true := by
        intro d hd
        rw [List.eq_of_mem_replicate hd]
        rfl
      have hnone : (List.replicate layout.tabWidth ' ').count '\n' = 0 := by
        simp [List.count_replicate]
      rw [hcons, List.takeWhile_append_of_pos hspaces, List.count_append, hnone, ih, htab,
        List.takeWhile_cons_of_pos rfl, List.count_cons_of_ne (by decide), Nat.zero_add]
    · have hcons : expandTabs layout (c :: cs) = c :: expandTabs layout cs := by
        simp [expandTabs, htab]
      rw [hcons]
      by_cases hc : isMargin c = true
      · rw [List.takeWhile_cons_of_pos hc, List.takeWhile_cons_of_pos hc, List.count_cons,
          List.count_cons, ih]
      · rw [List.takeWhile_cons_of_neg hc, List.takeWhile_cons_of_neg hc]

/-! ### The line of a point -/

/-- The whole source as it is scanned, with its margin. -/
def whole (layout : Layout) (source : String) : List Char :=
  expandTabs layout (unifyBreaks source.toList)

theorem whole_eq_unlines (layout : Layout) (source : String) :
    whole layout source = unlines ((lines source).map (expandTabs layout)) := by
  rw [whole, ← unlines_lines, expandTabs_unlines]

theorem count_lead (layout : Layout) (source : String) :
    ((whole layout source).takeWhile isMargin).count '\n' = lead source :=
  count_takeWhile_expandTabs layout _

/-- The text that is scanned has margin on both sides. -/
theorem whole_eq_append (layout : Layout) (source : String) :
    ∃ margin, (∀ c ∈ margin, isMargin c = true) ∧
      whole layout source =
        (whole layout source).takeWhile isMargin ++ (normalize layout source ++ margin) := by
  refine ⟨((whole layout source).dropWhile isMargin).rtakeWhile isMargin, ?_, ?_⟩
  · intro c hc
    exact List.mem_rtakeWhile_imp hc
  · have hsplit : normalize layout source ++
        ((whole layout source).dropWhile isMargin).rtakeWhile isMargin =
          (whole layout source).dropWhile isMargin :=
      List.rdropWhile_append_rtakeWhile
    rw [hsplit, List.takeWhile_append_dropWhile]

theorem count_cut {ls : List (List Char)} {line : List Char} {ls' : List (List Char)}
    {front back : List Char} (hlines : lines source = ls ++ line :: ls')
    (hline : expandTabs layout line = front ++ back) :
    (above (ls.map (expandTabs layout)) ++ front).count '\n' = ls.length := by
  have hfront : '\n' ∉ front := by
    intro hmem
    have hmem' : line ∈ lines source := by simp [hlines]
    exact not_mem_expandTabs (not_mem_line hmem') (hline ▸ List.mem_append_left _ hmem)
  have habove : ∀ l ∈ ls.map (expandTabs layout), '\n' ∉ l := by
    intro l hl
    obtain ⟨l', hl', rfl⟩ := List.mem_map.1 hl
    have hmem : l' ∈ lines source := by simp [hlines, hl']
    exact not_mem_expandTabs (not_mem_line hmem)
  rw [List.count_append, count_above habove, List.count_eq_zero_of_not_mem hfront,
    List.length_map, Nat.add_zero]

/-- Every point of the text that is scanned lies on a line of the source. -/
theorem onLine_count (h : normalize layout source = done ++ rest) :
    OnLine layout source (done.count '\n' + 1 + lead source) done rest := by
  obtain ⟨margin, hmargin, hwhole⟩ := whole_eq_append layout source
  have hne : (lines source).map (expandTabs layout) ≠ [] := by
    rw [ne_eq, List.map_eq_nil_iff]
    exact List.splitOn_ne_nil _ _
  have hcut : unlines ((lines source).map (expandTabs layout)) =
      ((whole layout source).takeWhile isMargin ++ done) ++ (rest ++ margin) := by
    rw [← whole_eq_unlines]
    nth_rewrite 1 [hwhole]
    rw [h]
    simp
  obtain ⟨ls₁, l, ls₂, front, back, hls, hl, hdone, hrest⟩ := exists_line_of_unlines hne hcut
  obtain ⟨ls, ls', hlines, rfl, hls'⟩ := List.map_eq_append_iff.1 hls
  obtain ⟨line, ls', rfl, rfl, rfl⟩ := List.map_eq_cons_iff.1 hls'
  refine ⟨ls, line, ls', front, back, hlines, ?_, hl, ?_, ?_⟩
  · have hcount := count_cut hlines hl
    rw [← hdone, List.count_append, count_lead] at hcount
    omega
  · have htake : ∀ c ∈ (whole layout source).takeWhile isMargin, isMargin c = true :=
      fun c hc => List.mem_takeWhile_imp hc
    rw [← hdone, List.dropWhile_append_of_pos htake]
    cases done with
    | nil => rfl
    | cons c cs =>
      have hc := isMargin_head_normalize layout source c (by rw [h]; rfl)
      rw [List.dropWhile_cons_of_neg (by simp [hc])]
  · have hreverse : ∀ c ∈ margin.reverse, isMargin c = true :=
      fun c hc => hmargin c (List.mem_reverse.1 hc)
    rw [← hrest, trimEnd, List.reverse_append, List.dropWhile_append_of_pos hreverse]
    rcases List.eq_nil_or_concat' rest with rfl | ⟨init, c, rfl⟩
    · rfl
    · have hc := isMargin_getLast_normalize layout source c
        (by rw [h, ← List.append_assoc]; simp)
      rw [List.reverse_concat, List.dropWhile_cons_of_neg (by simp [hc])]
      simp

/-- Where there is something to scan, a point of it lies on one line. -/
theorem OnLine.eq_count (hline : OnLine layout source number done rest)
    (h : normalize layout source = done ++ rest) (hne : normalize layout source ≠ []) :
    number = done.count '\n' + 1 + lead source := by
  obtain ⟨ls, line, ls', front, back, hlines, rfl, hcut, hdone, hrest⟩ := hline
  have hcount := count_cut hlines hcut
  have hwhole : whole layout source = (above (ls.map (expandTabs layout)) ++ front) ++
      (back ++ below (ls'.map (expandTabs layout))) := by
    rw [whole_eq_unlines, hlines, List.map_append, List.map_cons, unlines_eq_above, hcut]
    simp
  have hlead := count_lead layout source
  generalize above (ls.map (expandTabs layout)) ++ front = before at *
  generalize back ++ below (ls'.map (expandTabs layout)) = behind at *
  -- What is scanned starts where the margin ends, and behind the point it goes on with `behind`.
  have hsplit : before = before.takeWhile isMargin ++ done := by
    rw [hdone, List.takeWhile_append_dropWhile]
  have hstop : (done ++ behind).takeWhile isMargin = [] := by
    obtain ⟨c, cs, hcs⟩ := List.exists_cons_of_ne_nil hne
    have hc := isMargin_head_normalize layout source c (by rw [hcs]; rfl)
    obtain ⟨margin, hmargin⟩ : rest <+: behind := hrest ▸ List.rdropWhile_prefix _ _
    rw [← hmargin, ← List.append_assoc, ← h, hcs, List.cons_append,
      List.takeWhile_cons_of_neg (by simp [hc])]
  have htake : ∀ c ∈ before.takeWhile isMargin, isMargin c = true :=
    fun c hc => List.mem_takeWhile_imp hc
  rw [hwhole, hsplit, List.append_assoc, List.takeWhile_append_of_pos htake, hstop,
    List.append_nil] at hlead
  rw [hsplit, List.count_append, hlead] at hcount
  omega

end Source

/-! ### The text of a lexeme -/

namespace Scanner

variable {layout : Layout} {source : String} {s s' : Scanner} {ls : List Lexeme} {l : Lexeme}
  {e : ScanError} {done text : List Char}

/-- Going on to the next line takes a line break and spaces off the text. -/
theorem exists_break (cs : List Char) :
    ∃ text, '\n' :: cs = text ++ cs.dropWhile isSpace ∧ text.count '\n' = 1 ∧
      text ≠ [] ∧ ∀ c ∈ text, Source.isMargin c = true := by
  have hspace : ∀ c ∈ cs.takeWhile isSpace, c = ' ' := fun c hc => by
    simpa [isSpace] using List.mem_takeWhile_imp hc
  have hcount : (cs.takeWhile isSpace).count '\n' = 0 :=
    List.count_eq_zero_of_not_mem fun hmem => absurd (hspace _ hmem) (by decide)
  refine ⟨'\n' :: cs.takeWhile isSpace, ?_, ?_, List.cons_ne_nil _ _, ?_⟩
  · rw [List.cons_append, List.takeWhile_append_dropWhile]
  · rw [List.count_cons_self, hcount]
  · intro c hc
    rcases List.mem_cons.1 hc with rfl | hc
    · rfl
    · rw [hspace c hc]
      rfl

/-- The line of a lexeme is the one on which its text ends; the text of a token inside a line
is on that line from its start. -/
theorem Step.exists_text (hs : s.Sound) (hstep : Step s (.ok l) s') :
    ∃ text, s.rest = text ++ s'.rest ∧ l.line = s.line + text.count '\n' ∧
      (l.kind.isInline = true → text ≠ [] ∧ '\n' ∉ text) := by
  have hbreak : ∀ {cs : List Char} {t : Token}, s.rest = '\n' :: cs →
      s'.rest = cs.dropWhile isSpace → l = ⟨t, s.line + 1⟩ → l.kind.isInline = false →
      ∃ text, s.rest = text ++ s'.rest ∧ l.line = s.line + text.count '\n' ∧
        (l.kind.isInline = true → text ≠ [] ∧ '\n' ∉ text) := by
    intro cs t hrest hrest' hl hkind
    obtain ⟨text, htext, hcount, -⟩ := exists_break cs
    refine ⟨text, by rw [hrest, hrest', htext], by rw [hl, hcount], fun hinline => ?_⟩
    rw [hkind] at hinline
    cases hinline
  cases hstep with
  | deferred l ls hdeferred =>
    obtain rfl := hs.deferred l (by simp [hdeferred])
    exact ⟨[], rfl, rfl, fun hinline => by cases hinline⟩
  | close width opened hdeferred hrest hopened =>
    exact ⟨[], rfl, rfl, fun hinline => by cases hinline⟩
  | eos hdeferred hrest hopened =>
    exact ⟨[], rfl, rfl, fun hinline => by cases hinline⟩
  | token c cs token rest hdeferred hrest hc hread =>
    obtain ⟨taken, htaken, hinline⟩ := s.local_readInline.exists_taken
      (show Reader.outcome s.readInline s.rest = some (token, rest.1) by
        rw [Reader.outcome, hread]; rfl)
    refine ⟨taken, htaken, ?_, fun _ => ⟨?_, hinline⟩⟩
    · rw [List.count_eq_zero_of_not_mem hinline]
      rfl
    · -- Every token takes at least one character.
      rintro rfl
      have hlt := rest.2
      rw [List.nil_append] at htaken
      rw [← htaken] at hlt
      exact absurd hlt (Nat.lt_irrefl _)
  | blank cs hdeferred hrest hregion hblank => exact hbreak hrest rfl rfl rfl
  | verbatimBlank cs region hdeferred hrest hregion hblank => exact hbreak hrest rfl rfl rfl
  | verbatimLine cs region hdeferred hrest hregion hblank hwidth => exact hbreak hrest rfl rfl rfl
  | same cs hdeferred hrest hregion hblank hwidth => exact hbreak hrest rfl rfl rfl
  | deeper cs hdeferred hrest hregion hblank hwidth => exact hbreak hrest rfl rfl rfl
  | shallower cs closed indents hdeferred hrest hregion hblank hwidth hclose =>
    exact hbreak hrest rfl rfl rfl

/-- The line of an error is the one on which scanning stops, in front of a character of that
line, if there is one. -/
theorem Step.exists_text_of_error (hstep : Step s (.error e) s') :
    ∃ text, s.rest = text ++ s'.rest ∧ e.line = s.line + text.count '\n' ∧
      s'.rest.head? ≠ some '\n' ∧
      (s'.rest = [] → text ≠ [] ∧ ∀ c ∈ text, Source.isMargin c = true) := by
  cases hstep with
  | unknown c cs hdeferred hrest hc hread =>
    refine ⟨[], rfl, rfl, ?_, ?_⟩
    · rw [hrest]
      simpa using hc
    · rw [hrest]
      intro hnil
      cases hnil
  | malformed cs hdeferred hrest hregion hblank hwidth hclose =>
    obtain ⟨text, htext, hcount, hne, hmargin⟩ := exists_break cs
    refine ⟨text, hrest.trans htext, ?_, ?_, fun _ => ⟨hne, hmargin⟩⟩
    · rw [hcount]
      rfl
    · simpa [isBlankLine] using hblank

section

variable (h : Emits (ofSource layout source) ls s)

include h

theorem Emits.exists_done :
    ∃ done, Source.normalize layout source = done ++ s.rest ∧
      s.line = done.count '\n' + 1 := by
  obtain ⟨above, front, hplaced⟩ :=
    h.placed (sound_ofSource layout source) (placed_ofSource layout source)
  refine ⟨above ++ front, by rw [hplaced.eq, List.append_assoc], ?_⟩
  rw [hplaced.number, List.count_append, List.count_eq_zero_of_not_mem hplaced.inline,
    Nat.add_zero]

/-- The number of a lexeme counts the line breaks up to the end of its text. -/
theorem Emits.line_eq (hnext : s.next = (.ok l, s'))
    (hdone : Source.normalize layout source = done ++ (text ++ s'.rest))
    (htext : s.rest = text ++ s'.rest) :
    l.line = (done ++ text).count '\n' + 1 ∧
      (l.kind.isInline = true → text ≠ [] ∧ '\n' ∉ text) := by
  obtain ⟨done', hdone', hline⟩ := h.exists_done
  obtain ⟨text', htext', hline', hinline⟩ :=
    Step.exists_text (h.sound (sound_ofSource layout source)) (.of_next hnext)
  obtain rfl : done = done' := by
    rw [hdone, ← htext] at hdone'
    exact List.append_cancel_right hdone'
  obtain rfl : text = text' := List.append_cancel_right (htext.symm.trans htext')
  refine ⟨?_, hinline⟩
  rw [List.count_append]
  omega

/-- The number of an error counts the line breaks up to where scanning stops. -/
theorem Emits.line_eq_of_error
    (hnext : s.next = (.error e, s')) (hdone : Source.normalize layout source = done ++ s'.rest) :
    e.line = done.count '\n' + 1 := by
  obtain ⟨done', hdone', hline⟩ := h.exists_done
  obtain ⟨text, htext, hline', -⟩ := Step.exists_text_of_error (.of_next hnext)
  obtain rfl : done = done' ++ text := by
    rw [hdone, htext, ← List.append_assoc] at hdone'
    exact List.append_cancel_right hdone'
  rw [List.count_append]
  omega

/-- Scanning stops in front of a character that is no line break. -/
theorem Emits.exists_stop (hnext : s.next = (.error e, s')) :
    ∃ done c cs, Source.normalize layout source = done ++ s'.rest ∧ s'.rest = c :: cs ∧
      c ≠ '\n' := by
  obtain ⟨done, hdone, -⟩ := h.exists_done
  obtain ⟨text, htext, -, hhead, hnil⟩ := Step.exists_text_of_error (.of_next hnext)
  rw [htext, ← List.append_assoc] at hdone
  cases hrest : s'.rest with
  | nil =>
    -- The text that is scanned does not end with a line break and spaces.
    obtain ⟨hne, hmargin⟩ := hnil hrest
    obtain ⟨init, c, rfl⟩ := (List.eq_nil_or_concat' text).resolve_left hne
    have hc := Source.isMargin_getLast_normalize layout source c
      (by rw [hdone, hrest, ← List.append_assoc]; simp)
    rw [hmargin c (by simp)] at hc
    cases hc
  | cons c cs =>
    rw [hrest] at hdone hhead
    exact ⟨done ++ text, c, cs, hdone, rfl, by simpa using hhead⟩

end

/-- Each lexeme on a tape is scanned behind those in front of it. -/
theorem exists_emits_of_lexemes {front back : List Lexeme}
    (h : s.tape.lexemes = front ++ l :: back) :
    ∃ s₁ s₂, Emits s front s₁ ∧ s₁.next = (.ok l, s₂) := by
  induction s using tape_induction generalizing front with
  | error s e s' hnext =>
    rw [tape_of_error hnext] at h
    simp [Tape.lexemes] at h
  | eos s l' s' hnext hl' =>
    rw [tape_of_eos hnext hl'] at h
    cases front with
    | nil =>
      obtain ⟨rfl, -⟩ := List.cons.inj h
      exact ⟨s, s', .refl s, hnext⟩
    | cons l'' front => simp [Tape.lexemes] at h
  | step s l' s' hnext hl' ih =>
    rw [tape_of_ok hnext hl', Tape.lexemes_cons] at h
    cases front with
    | nil =>
      obtain ⟨rfl, -⟩ := List.cons.inj h
      exact ⟨s, s', .refl s, hnext⟩
    | cons l'' front =>
      obtain ⟨rfl, htail⟩ := List.cons.inj h
      obtain ⟨s₁, s₂, hemits, hnext'⟩ := ih htail
      exact ⟨s₁, s₂, .step hnext hl' hemits, hnext'⟩

/-- The failure of a tape is scanned behind all of its lexemes. -/
theorem exists_emits_of_failure (h : s.tape.failure = some e) :
    ∃ ls s₁ s₂, Emits s ls s₁ ∧ s₁.next = (.error e, s₂) := by
  induction s using tape_induction with
  | error s e' s' hnext =>
    rw [tape_of_error hnext] at h
    obtain rfl := Option.some.inj h
    exact ⟨[], s, s', .refl s, hnext⟩
  | eos s l s' hnext hl =>
    rw [tape_of_eos hnext hl] at h
    cases h
  | step s l s' hnext hl ih =>
    rw [tape_of_ok hnext hl, Tape.failure_cons] at h
    obtain ⟨ls, s₁, s₂, hemits, hnext'⟩ := ih h
    exact ⟨l :: ls, s₁, s₂, .step hnext hl hemits, hnext'⟩

end Scanner

/-! ### Where lexemes and failures stand -/

open Scanner (Emits)

/-- A lexeme stands on a line of the source, behind the lexemes of a list: the text that it is
read from ends on that line, and if it is a token inside a line, starts there. -/
def LexemeOn (layout : Layout) (source : String) (ls : List Lexeme) (l : Lexeme)
    (number : Nat) : Prop :=
  ∃ s s' done text, Emits (.ofSource layout source) ls s ∧ s.next = (.ok l, s') ∧
    Source.normalize layout source = done ++ (text ++ s'.rest) ∧ s.rest = text ++ s'.rest ∧
    Source.OnLine layout source number (done ++ text) s'.rest ∧
    (l.kind.isInline = true →
      text ≠ [] ∧ Source.OnLine layout source number done (text ++ s'.rest))

/-- A failure stands on a line of the source: scanning stops there in front of a character. -/
def FailureOn (layout : Layout) (source : String) (e : ScanError) (number : Nat) : Prop :=
  ∃ ls s s' done c cs, Emits (.ofSource layout source) ls s ∧ s.next = (.error e, s') ∧
    Source.normalize layout source = done ++ s'.rest ∧ s'.rest = c :: cs ∧ c ≠ '\n' ∧
    Source.OnLine layout source number done s'.rest

/-- The line with a property. Unless there is nothing to scan, no other line has it. -/
def Source.TheLine (layout : Layout) (source : String) (p : Nat → Prop) (number : Nat) : Prop :=
  p number ∧ (Source.normalize layout source ≠ [] → ∀ other, p other → other = number)

section

variable {layout : Layout} {source : String} {s s' : Scanner} {ls : List Lexeme} {l : Lexeme}
  {e : ScanError} {number : Nat}

/-- The numbers of lexemes leave out the line breaks that were trimmed. -/
theorem theLine_lexeme (hemits : Emits (.ofSource layout source) ls s)
    (hnext : s.next = (.ok l, s')) :
    Source.TheLine layout source (LexemeOn layout source ls l) (l.line + Source.lead source) := by
  constructor
  · obtain ⟨done, hdone, -⟩ := hemits.exists_done
    obtain ⟨text, htext, -⟩ :=
      Scanner.Step.exists_text (hemits.sound (Scanner.sound_ofSource layout source))
        (.of_next hnext)
    rw [htext] at hdone
    obtain ⟨hline, hinline⟩ := hemits.line_eq hnext hdone htext
    refine ⟨s, s', done, text, hemits, hnext, hdone, htext, ?_, fun hkind => ?_⟩
    · rw [hline]
      exact Source.onLine_count (by rw [hdone, List.append_assoc])
    · obtain ⟨hne, hbreak⟩ := hinline hkind
      rw [hline, List.count_append, List.count_eq_zero_of_not_mem hbreak, Nat.add_zero]
      exact ⟨hne, Source.onLine_count hdone⟩
  · rintro hne number ⟨s₁, s₂, done, text, hemits', hnext', hdone, htext, hon, -⟩
    rw [hon.eq_count (by rw [hdone, List.append_assoc]) hne,
      (hemits'.line_eq hnext' hdone htext).1]

/-- The numbers of errors leave out the line breaks that were trimmed. -/
theorem theLine_failure (h : tokenize layout source = .error e) :
    Source.TheLine layout source (FailureOn layout source e) (e.line + Source.lead source) := by
  rw [tokenize_eq_tape, Tape.result_eq_error_iff] at h
  obtain ⟨ls, s, s', hemits, hnext⟩ := Scanner.exists_emits_of_failure h
  constructor
  · obtain ⟨done, c, cs, hdone, hrest, hc⟩ := hemits.exists_stop hnext
    refine ⟨ls, s, s', done, c, cs, hemits, hnext, hdone, hrest, hc, ?_⟩
    rw [hemits.line_eq_of_error hnext hdone]
    exact Source.onLine_count hdone
  · rintro hne number ⟨ls', s₁, s₂, done, c, cs, hemits', hnext', hdone, -, -, hon⟩
    rw [hon.eq_count hdone hne, hemits'.line_eq_of_error hnext' hdone]

theorem theLine_of_lexemes {front back : List Lexeme}
    (h : (Scanner.ofSource layout source).tape.lexemes = front ++ l :: back) :
    Source.TheLine layout source (LexemeOn layout source front l)
      (l.line + Source.lead source) := by
  obtain ⟨s, s', hemits, hnext⟩ := Scanner.exists_emits_of_lexemes h
  exact theLine_lexeme hemits hnext

/-- An error of reading is the failure of scanning, or about a lexeme. -/
theorem faults_of_parse {error : ParseError} (h : parse layout source = .error error) :
    Reading.Faults (Scanner.ofSource layout source).tape.failure
      (Scanner.ofSource layout source).tape.lexemes error := by
  rw [parse_eq_read] at h
  exact Reading.faults_of_read ⟨rfl, fun l hl => hl⟩ h

theorem tokenize_of_parse_scan (h : parse layout source = .error (.scan e)) :
    tokenize layout source = .error e := by
  rw [tokenize_eq_tape, Tape.result_eq_error_iff]
  cases faults_of_parse h with
  | scan failure hf he =>
    obtain rfl := ParseError.scan.inj he
    exact hf
  | blame l hl he => rcases he with he | he <;> cases he
  | missing line hf he => cases he

theorem theLine_of_parse_unknownToken {kind : Token.Kind} {line : Nat}
    (h : parse layout source = .error (.unknownToken kind line)) :
    ∃ front l, l.kind = kind ∧ l.line = line ∧
      Source.TheLine layout source (LexemeOn layout source front l)
        (line + Source.lead source) := by
  cases faults_of_parse h with
  | scan failure hf he => cases he
  | missing line hf he => cases he
  | blame l hl he =>
    rcases he with he | he
    · cases he
    · obtain ⟨rfl, rfl⟩ := ParseError.unknownToken.inj he
      obtain ⟨front, back, hls⟩ := List.append_of_mem hl
      exact ⟨front, l, rfl, rfl, theLine_of_lexemes hls⟩

end

/-! ### Errors of engines -/

theorem Error.eq_of_ofParse_malformedIndentation {name name' : String} {error : ParseError}
    {line : Nat} (h : ofParse name error = .malformedIndentation line name') :
    error = .scan (.malformedIndentation line) := by
  unfold ofParse at h
  split at h
  · obtain ⟨rfl, -⟩ := Error.malformedIndentation.inj h
    rfl
  all_goals cases h

theorem Error.eq_of_ofParse_unknownToken {name name' : String} {error : ParseError} {line : Nat}
    (h : ofParse name error = .unknownToken line name') :
    error = .scan (.unknownToken line) ∨ ∃ kind, error = .unknownToken kind line := by
  unfold ofParse at h
  split at h
  · cases h
  · obtain ⟨rfl, -⟩ := Error.unknownToken.inj h
    exact .inl rfl
  · obtain ⟨rfl, -⟩ := Error.unknownToken.inj h
    exact .inr ⟨_, rfl⟩
  · cases h

/-- A template fails to be compiled where its document cannot be read or not be rendered. -/
theorem Engine.cases_of_render_eq_error {engine : Engine} {source : String} {error : Error}
    (h : engine.render source = .error error) :
    (∃ error', parse engine.renderer.layout source = .error error' ∧
      Error.ofParse inputName error' = error) ∨
    ∃ error', error = .render error' := by
  unfold render renderNamed at h
  cases hparse : parse engine.renderer.layout source with
  | error error' =>
    rw [hparse] at h
    exact .inl ⟨error', rfl, Except.error.inj h⟩
  | ok root =>
    rw [hparse] at h
    change (engine.renderer.render root).mapError Error.render = .error error at h
    cases hrender : engine.renderer.render root with
    | error error' =>
      rw [hrender] at h
      exact .inr ⟨error', (Except.error.inj h).symm⟩
    | ok markup =>
      rw [hrender] at h
      cases h

/-- Tokens, failures of scanning and errors about a token where no node starts are numbered by
the lines of the source, less the line breaks in front of the first character that is no
margin. -/
theorem reported_lines_leave_out_lead (engine : Engine) (source : String) :
    let layout := engine.renderer.layout
    let lead := Source.lead source
    (∀ front l back, tokenize layout source = .ok (front ++ l :: back) →
      Source.TheLine layout source (LexemeOn layout source front l) (l.line + lead)) ∧
    (∀ e, tokenize layout source = .error e →
      Source.TheLine layout source (FailureOn layout source e) (e.line + lead)) ∧
    (∀ e, parse layout source = .error (.scan e) →
      Source.TheLine layout source (FailureOn layout source e) (e.line + lead)) ∧
    (∀ kind line, parse layout source = .error (.unknownToken kind line) →
      ∃ front l, l.kind = kind ∧ l.line = line ∧
        Source.TheLine layout source (LexemeOn layout source front l) (line + lead)) ∧
    (∀ line name, engine.render source = .error (.malformedIndentation line name) →
      Source.TheLine layout source (FailureOn layout source (.malformedIndentation line))
        (line + lead)) ∧
    (∀ line name, engine.render source = .error (.unknownToken line name) →
      Source.TheLine layout source (FailureOn layout source (.unknownToken line)) (line + lead) ∨
      ∃ front l, l.line = line ∧
        Source.TheLine layout source (LexemeOn layout source front l) (line + lead)) := by
  refine ⟨fun front l back h => ?_, fun e => theLine_failure, fun e h => ?_,
    fun kind line => theLine_of_parse_unknownToken, fun line name h => ?_, fun line name h => ?_⟩
  · rw [tokenize_eq_tape, Tape.result_eq_ok_iff] at h
    exact theLine_of_lexemes h.2
  · exact theLine_failure (tokenize_of_parse_scan h)
  · obtain ⟨error, hparse, herror⟩ | ⟨error, herror⟩ := Engine.cases_of_render_eq_error h
    · rw [Error.eq_of_ofParse_malformedIndentation herror] at hparse
      exact theLine_failure (tokenize_of_parse_scan hparse)
    · cases herror
  · obtain ⟨error, hparse, herror⟩ | ⟨error, herror⟩ := Engine.cases_of_render_eq_error h
    · rcases Error.eq_of_ofParse_unknownToken herror with rfl | ⟨kind, rfl⟩
      · exact .inl (theLine_failure (tokenize_of_parse_scan hparse))
      · obtain ⟨front, l, -, hl⟩ := theLine_of_parse_unknownToken hparse
        exact .inr ⟨front, l, hl⟩
    · cases herror

/-- Templates whose first two lines are blank, with line breaks of all sorts. -/
theorem reported_lines_leave_out_lead_list :
    Source.TheLine {} "\r\r\n p" (LexemeOn {} "\r\r\n p" [] ⟨.tag "p", 1⟩) 3 ∧
    Source.TheLine {} "\n \r\nul\r    li a\n  li b"
      (FailureOn {} "\n \r\nul\r    li a\n  li b" (.malformedIndentation 3)) 5 := by
  have htokens : tokenize {} "\r\r\n p" = .ok [⟨.tag "p", 1⟩, ⟨.eos, 1⟩] := by
    decide +kernel
  have hrender : (Engine.plain {}).render "\n \r\nul\r    li a\n  li b" =
      .error (.malformedIndentation 3 Engine.inputName) := by
    decide +kernel
  have htoken := (reported_lines_leave_out_lead (Engine.plain {}) _).1 [] _ _ htokens
  have hfailure := (reported_lines_leave_out_lead (Engine.plain {}) _).2.2.2.2.1 3 _ hrender
  have hlead : Source.lead "\r\r\n p" = 2 := by decide +kernel
  have hlead' : Source.lead "\n \r\nul\r    li a\n  li b" = 2 := by decide +kernel
  rw [hlead] at htoken
  rw [hlead'] at hfailure
  exact ⟨htoken, hfailure⟩

/-- The line that cannot be placed is the fifth one of the template. It is reported as the
third one. -/
theorem render_misreports_line :
    (Engine.plain {}).render "\n\nul\n    li a\n  li b" =
        .error (.malformedIndentation 3 Engine.inputName) ∧
      FailureOn {} "\n\nul\n    li a\n  li b" (.malformedIndentation 3) 5 ∧
      ∀ number, FailureOn {} "\n\nul\n    li a\n  li b" (.malformedIndentation 3) number →
        number = 5 := by
  have htokenize : tokenize {} "\n\nul\n    li a\n  li b" = .error (.malformedIndentation 3) := by
    decide +kernel
  have hlead : Source.lead "\n\nul\n    li a\n  li b" = 2 := by decide +kernel
  have hline := theLine_failure htokenize
  rw [hlead] at hline
  exact ⟨by decide +kernel, hline.1, hline.2 (by decide +kernel)⟩

end Offside
