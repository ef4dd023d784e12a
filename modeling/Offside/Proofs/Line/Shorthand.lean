import Offside.Proofs.Line.Rule
import Offside.Proofs.Outline.Headline

/-!
# A shorthand where a line starts

A line that starts with a shorthand, and the same line with `div` in front of it. Both sources
are scanned alike up to that line (`exists_emits_extend`) and over its indentation
(`exists_emits_line`), and then the second one has a tag more, behind which both scanners are in
the same state (`tape_shorthand`).

In a verbatim region the line would be text. Whether it is in one is seen from the first token
inside of it (`Source.isOutsideBelow`).
-/

set_option autoImplicit false

namespace Offside

open Offside.Character

/-! ### A word between the margins of a source -/

/-- Trimming leaves a word that holds nothing to be trimmed, and trims what is in front of it
and behind it. -/
theorem Character.trim_word {p : Char → Bool} {word : List Char} (hne : word ≠ [])
    (hword : ∀ c ∈ word, p c = false) (xs ys : List Char) :
    trim p (xs ++ (word ++ ys)) = xs.dropWhile p ++ (word ++ trimEnd p ys) := by
  have hlast : trimEnd p (word ++ ys) = word ++ trimEnd p ys := by
    obtain ⟨init, d, rfl⟩ := (List.eq_nil_or_concat' word).resolve_left hne
    rw [List.append_assoc, List.append_assoc]
    exact trimEnd_append_cons (hword d (by simp)) init ys
  obtain ⟨c, tail, rfl⟩ := List.exists_cons_of_ne_nil hne
  have hc : p c = false := hword c (.head _)
  rw [trim, List.cons_append, dropWhile_append_cons hc, ← List.cons_append,
    trimEnd_append ⟨c, by simp, hc⟩, hlast]

namespace Source

variable {layout : Layout} {source : String} {above lower : List (List Char)}
  {lead text : List Char}

/-- What is scanned in front of a line behind its indentation. -/
def fore (layout : Layout) (above : List (List Char)) (lead : List Char) : List Char :=
  unlines (stripFront (above.map (expandTabs layout) ++ [expandTabs layout lead]))

/-- What is scanned behind a word on a line. -/
def aft (layout : Layout) (text : List Char) (lower : List (List Char)) : List Char :=
  trimEnd isMargin (expandTabs layout text ++ below (lower.map (expandTabs layout)))

/-- A word on a line stays as it is, and what is scanned in front of it and behind it does not
depend on it. -/
theorem normalize_word (word : List Char)
    (hlines : lines source = above ++ (lead ++ (word ++ text)) :: lower) (hne : word ≠ [])
    (hword : ∀ c ∈ word, isMargin c = false) :
    normalize layout source = fore layout above lead ++ (word ++ aft layout text lower) := by
  have htabs : expandTabs layout word = word := by
    refine Outline.expandTabs_of_not_mem layout fun htab => ?_
    cases hword _ htab
  have hwhole : unlines ((lines source).map (expandTabs layout)) =
      unlines (above.map (expandTabs layout) ++ [expandTabs layout lead]) ++
        (word ++ (expandTabs layout text ++ below (lower.map (expandTabs layout)))) := by
    rw [hlines, List.map_append, List.map_cons, unlines_eq_above, unlines_eq_above,
      Outline.expandTabs_append, Outline.expandTabs_append, htabs]
    simp
  rw [normalize, ← unlines_lines, expandTabs_unlines, hwhole, trim_word hne hword,
    dropWhile_unlines]
  rfl

/-- Spaces and tabs become spaces. -/
theorem exists_expandTabs_eq_replicate (layout : Layout) (hlead : ∀ c ∈ lead, c = ' ' ∨ c = '\t') :
    ∃ width, expandTabs layout lead = List.replicate width ' ' := by
  refine ⟨(expandTabs layout lead).length, List.eq_replicate_iff.2 ⟨rfl, fun c hc => ?_⟩⟩
  obtain ⟨hne, hspace | hmem⟩ := Outline.mem_expandTabs hc
  · exact hspace
  · exact (hlead c hmem).resolve_right hne

/-- A line is the first one that is scanned, or indented behind the break of another one. -/
theorem fore_cases (layout : Layout) (above : List (List Char))
    (hlead : ∀ c ∈ lead, c = ' ' ∨ c = '\t') :
    fore layout above lead = [] ∨ ∃ width,
      fore layout above lead = unlines (stripFront (above.map (expandTabs layout))) ++
        '\n' :: List.replicate width ' ' ∧
      stripFront (above.map (expandTabs layout)) ≠ [] := by
  obtain ⟨width, hwidth⟩ := exists_expandTabs_eq_replicate layout hlead
  have hmarginal : isMarginal (List.replicate width ' ') = true := by
    rw [isMarginal, List.all_eq_true]
    intro c hc
    rw [List.eq_of_mem_replicate hc]
    rfl
  rw [fore, hwidth]
  by_cases habove : ∀ l ∈ above.map (expandTabs layout), isMarginal l = true
  · left
    rw [stripFront_append_of_all habove, stripFront_cons_of_pos hmarginal]
    rfl
  · have hany : ∃ l ∈ above.map (expandTabs layout), isMarginal l = false := by
      simpa only [not_forall, exists_prop, Bool.not_eq_true] using habove
    have hne := stripFront_ne_nil hany
    refine .inr ⟨width, ?_, hne⟩
    rw [stripFront_append_of_any hany, unlines_append hne, below_cons, below_nil,
      List.append_nil]

end Source

/-! ### Scanning the shorthand -/

theorem Token.read_shorthand {mark c : Char} (hmark : mark = '#' ∨ mark = '.')
    (hc : isName c = true) (cs : List Char) :
    ∃ token h, token.kind.isShorthand = true ∧
      Token.read (mark :: c :: cs) = some (token, ⟨cs.dropWhile isName, h⟩) := by
  have hbefore := Outline.read_eq_none_of_part (c := mark) (c :: cs)
    (hmark.imp_right .inl) (by rcases hmark with rfl | rfl <;> simp [isSpace])
  have hread : ∀ make : String → Token, ∃ h, Token.readMarked mark make (mark :: c :: cs) =
      some (make (String.ofList (c :: cs.takeWhile isName)), ⟨cs.dropWhile isName, h⟩) :=
    fun make => ⟨_, if_pos (by simp [hc])⟩
  rcases hmark with rfl | rfl
  · obtain ⟨h, hid⟩ := hread .idName
    exact ⟨_, h, rfl, Outline.read_eq_of_readers _ rfl hbefore hid⟩
  · obtain ⟨h, hclass⟩ := hread .className
    have hid : Token.readMarked '#' .idName ('.' :: c :: cs) = none :=
      Token.readMarked_eq_none (by simp)
    have hbefore' := List.forall_mem_append.2 ⟨hbefore, List.forall_mem_singleton.2 hid⟩
    exact ⟨_, h, rfl, Outline.read_eq_of_readers _ rfl hbefore' hclass⟩

namespace Scanner

variable {s v : Scanner} {mark c : Char} {cs : List Char} {width : Nat}

/-- Outside of regions a shorthand is the next token, behind a tag on its line too: the last
token is not looked at. So both scanners come to the same state. -/
theorem emits_shorthand (hdeferred : s.deferred = []) (hregion : s.region = none)
    (hmark : mark = '#' ∨ mark = '.') (hc : isName c = true) (cs : List Char) :
    ∃ (l : Lexeme) (t : Scanner), l.kind.isShorthand = true ∧
      Emits { s with rest := mark :: c :: cs } [l] t ∧
      Emits { s with rest := "div".toList ++ mark :: c :: cs } [⟨.tag "div", l.line⟩, l] t := by
  obtain ⟨token, h, htoken, hread⟩ := Token.read_shorthand hmark hc cs
  have hopens : token.opensVerbatim = false := by
    cases token with
    | idName name | className name => rfl
    | _ => cases htoken
  have heos : token.kind ≠ .eos := by
    intro heos
    rw [heos] at htoken
    cases htoken
  have hbreak : mark ≠ '\n' := by rcases hmark with rfl | rfl <;> decide
  have hnext : ∀ last, { s with rest := mark :: c :: cs, last }.next =
      (.ok ⟨token, s.line⟩,
        { s with rest := cs.dropWhile isName, last := some token.kind }) :=
    fun last => Outline.next_of_read (s := { s with rest := mark :: c :: cs, last }) hdeferred
      hregion rfl hbreak hread hopens
  have hstop : ∀ d ∈ (mark :: c :: cs).head?, isTagName d = false := by
    rintro d ⟨⟩
    rcases hmark with rfl | rfl <;> decide
  have hname : Outline.IsName "div" := by decide
  obtain ⟨hlt, hdiv⟩ := Outline.read_name hname hstop
  have hnext' : { s with rest := "div".toList ++ mark :: c :: cs }.next =
      (.ok ⟨.tag "div", s.line⟩, { s with rest := mark :: c :: cs, last := some .tag }) :=
    Outline.next_of_read (s := { s with rest := "div".toList ++ mark :: c :: cs }) hdeferred
      hregion rfl (by decide) hdiv rfl
  exact ⟨⟨token, s.line⟩, _, htoken, .single (hnext s.last) heos,
    .step hnext' Token.Kind.noConfusion (.single (hnext _) heos)⟩

/-! ### Scanning its indentation -/

/-- A new width is compared in the same way whatever follows it. -/
theorem indentTo_rest (s : Scanner) (width : Nat) (rest : List Char) :
    { s with rest }.indentTo width =
      ((s.indentTo width).1, { (s.indentTo width).2 with rest }) := by
  unfold indentTo
  dsimp only
  split
  · rfl
  split
  · rfl
  split <;> rfl

/-- Nothing inside of a line is handed out at a new width, and what is put aside are
outdents. -/
theorem deferred_of_indentTo {l : Lexeme} {s' : Scanner} (hdeferred : s.deferred = [])
    (h : s.indentTo width = (.ok l, s')) :
    l.kind.isInline = false ∧ l.kind ≠ .eos ∧ s'.region = s.region ∧
      (s'.deferred = [] ∨
        s'.last = some .outdent ∧ ∃ n, s'.deferred = List.replicate n ⟨.outdent, s.line⟩) := by
  unfold indentTo at h
  split at h
  · cases h
    exact ⟨rfl, Token.Kind.noConfusion, rfl, .inl hdeferred⟩
  split at h
  · cases h
    exact ⟨rfl, Token.Kind.noConfusion, rfl, .inl hdeferred⟩
  split at h
  · next closed indents _ =>
    cases h
    refine ⟨rfl, Token.Kind.noConfusion, rfl, .inr ⟨rfl, closed - 1, ?_⟩⟩
    show s.deferred ++ _ = _
    rw [hdeferred, List.nil_append]
  · cases h

/-- From a line break, a scanner goes on to the first character of the next line in the same
way, whatever that line holds, unless it is text of a verbatim region. -/
theorem exists_emits_line {c₀ : Char} {cs₀ : List Char} (hdeferred : v.deferred = [])
    (hrest : v.rest = []) (hregion : ∀ region ∈ v.region, width ≤ region.base)
    (hspace : c₀ ≠ ' ') (hbreak : c₀ ≠ '\n')
    (hfailure : (v.extend (List.replicate width ' ' ++ c₀ :: cs₀)).tape.failure = none) :
    ∃ (ls : List Lexeme) (t : Scanner), t.deferred = [] ∧ t.region = none ∧ ls ≠ [] ∧
      (∀ l ∈ ls, l.kind.isInline = false) ∧
      ∀ c cs, c ≠ ' ' → c ≠ '\n' →
        Emits (v.extend (List.replicate width ' ' ++ c :: cs)) ls { t with rest := c :: cs } := by
  let u : Scanner := { v with line := v.line + 1, region := none }
  have hnext : ∀ c cs, c ≠ ' ' → c ≠ '\n' →
      (v.extend (List.replicate width ' ' ++ c :: cs)).next =
        ((u.indentTo width).1, { (u.indentTo width).2 with rest := c :: cs }) := by
    intro c cs hspace hbreak
    rw [← indentTo_rest]
    exact next_line (s := v.extend (List.replicate width ' ' ++ c :: cs)) hdeferred
      (by simp [extend, hrest]) hspace hbreak hregion
  cases hindent : u.indentTo width with
  | mk r s' =>
    rw [hindent] at hnext
    cases r with
    | error e =>
      rw [tape_of_error (hnext c₀ cs₀ hspace hbreak)] at hfailure
      cases hfailure
    | ok l =>
      obtain ⟨hl, heos, hregion', hothers⟩ := deferred_of_indentTo (s := u) hdeferred hindent
      rcases hothers with hnil | ⟨hlast, n, hn⟩
      · exact ⟨[l], s', hnil, hregion', List.cons_ne_nil _ _, List.forall_mem_singleton.2 hl,
          fun c cs hspace hbreak => .single (hnext c cs hspace hbreak) heos⟩
      · refine ⟨l :: List.replicate n ⟨.outdent, u.line⟩, { s' with deferred := [] }, rfl, hregion',
          List.cons_ne_nil _ _, ?_, fun c cs hspace hbreak => ?_⟩
        · refine List.forall_mem_cons.2 ⟨hl, fun m hm => ?_⟩
          rw [List.eq_of_mem_replicate hm]
          rfl
        · have hs' : { s' with rest := c :: cs } =
              { s' with rest := c :: cs, deferred := List.replicate n ⟨.outdent, u.line⟩ } := by
            rw [← hn]
          refine .step (hnext c cs hspace hbreak) heos ?_
          show Emits { s' with rest := c :: cs } _ _
          rw [hs']
          exact emits_deferred (s := { s' with rest := c :: cs, deferred := [] }) rfl hlast n u.line

theorem Emits.scans {ls : List Lexeme} {s' : Scanner} (h : Emits s ls s') :
    ∃ ts : List Scan, ts.map (·.lexeme) = ls ∧ s.tape.scans = ts ++ s'.tape.scans := by
  induction h with
  | refl s => exact ⟨[], rfl, rfl⟩
  | @step s s₁ s' l ls hnext hl _ ih =>
    obtain ⟨ts, rfl, hscans⟩ := ih
    refine ⟨⟨l, s.region.isSome⟩ :: ts, rfl, ?_⟩
    rw [tape_of_ok hnext hl, Tape.scans_cons, hscans]
    rfl

/-- Below the line that opens a region, the first token inside of a line is text. -/
theorem exists_scans_of_verbatim {region : Region} (cs : List Char) (hdeferred : v.deferred = [])
    (hrest : v.rest = []) (hregion : v.region = some region) (hwidth : region.base < width)
    (hspace : c ≠ ' ') (hbreak : c ≠ '\n') :
    ∃ value ts, (v.extend (List.replicate width ' ' ++ c :: cs)).tape.scans =
      ⟨⟨.indent, v.line + 1⟩, true⟩ :: ⟨⟨.text value, v.line + 1⟩, true⟩ :: ts := by
  let region' : Region :=
    { region with padding := width - (region.base + v.layout.tabWidth), opening := false }
  let u : Scanner :=
    { v with rest := c :: cs, line := v.line + 1, region := some region', last := some .indent }
  have hnext : (v.extend (List.replicate width ' ' ++ c :: cs)).next =
      (.ok ⟨.indent, v.line + 1⟩, u) :=
    next_verbatimLine (s := v.extend (List.replicate width ' ' ++ c :: cs)) hdeferred
      (by simp [extend, hrest]) hspace hbreak hregion hwidth
  have hline : Token.readLine (c :: cs) =
      some (c :: cs.takeWhile Token.isInline, .afterRun Token.isInline c cs) :=
    if_pos (by simpa [Token.isInline] using hbreak)
  have hread : u.readInline (c :: cs) = some (.text (String.ofList
      (region'.text (c :: cs.takeWhile Token.isInline))), .afterRun Token.isInline c cs) := by
    rw [readInline, readVerbatim, hline]
    rfl
  have hnext' := Outline.next_of_readInline (s := u) hdeferred rfl hbreak hread rfl
  have hopen : (v.extend (List.replicate width ' ' ++ c :: cs)).region.isSome = true :=
    congrArg Option.isSome hregion
  have hscans := tape_of_ok hnext' Token.Kind.noConfusion
  have hscans' := tape_of_ok hnext Token.Kind.noConfusion
  rw [hscans, hopen] at hscans'
  exact ⟨_, _, congrArg Tape.scans hscans'⟩

end Scanner

/-- Whether the line below some lines of a source is scanned outside of verbatim regions. The
token with which a line starts may close a region, so the first one inside of it counts. -/
def Source.isOutsideBelow (layout : Layout) (source : String) (above : List (List Char)) : Bool :=
  ((Scanner.ofSource layout source).tape.scans.find? fun t =>
    t.kind.isInline && !t.lexeme.isAbove above).any (!·.verbatim)

namespace Scanner

variable {layout : Layout} {source : String} {above : List (List Char)} {lead cs cs₀ : List Char}
  {c c₀ : Char} {v : Scanner} {width : Nat}

/-- A line that is deeper than the one that opened a region is not outside of it. -/
theorem isOutsideBelow_of_region {region : Region} {ls : List Lexeme}
    (hemits : Emits (ofSource layout source) ls (v.extend (List.replicate width ' ' ++ c :: cs)))
    (hline : v.line + (above.takeWhile Source.isMarginal).length = above.length)
    (hdeferred : v.deferred = []) (hrest : v.rest = []) (hregion : v.region = some region)
    (hwidth : region.base < width) (hspace : c ≠ ' ') (hbreak : c ≠ '\n') :
    Source.isOutsideBelow layout source above = false := by
  obtain ⟨value, ts, hbelow⟩ :=
    exists_scans_of_verbatim cs hdeferred hrest hregion hwidth hspace hbreak
  obtain ⟨ts', hlexemes, hscans⟩ := hemits.scans
  have habove : ∀ t ∈ ts', ¬(t.kind.isInline && !t.lexeme.isAbove above) = true := by
    intro t ht
    have hle : t.lexeme.line ≤ v.line :=
      (hemits.line_le (sound_ofSource layout source)).2 _ (hlexemes ▸ List.mem_map_of_mem ht)
    have hisAbove : t.lexeme.isAbove above = true := by
      simp only [Lexeme.isAbove, decide_eq_true_eq]
      omega
    simp [hisAbove]
  have hnot : Lexeme.isAbove above ⟨.text value, v.line + 1⟩ = false := by
    simp only [Lexeme.isAbove, decide_eq_false_iff_not]
    omega
  rw [Source.isOutsideBelow, hscans, List.find?_append, List.find?_eq_none.2 habove, hbelow]
  simp [List.find?, hnot, Scan.kind, Lexeme.kind, Token.kind, Token.Kind.isInline]

/-- A scanner goes on to the first character of a line outside of verbatim regions in the same
way, whatever follows there. -/
theorem exists_emits_fore (hlead : ∀ c ∈ lead, c = ' ' ∨ c = '\t') (habove : ∀ l ∈ above, '\n' ∉ l)
    (htext : Source.normalize layout source = Source.fore layout above lead ++ c₀ :: cs₀)
    (hspace : c₀ ≠ ' ') (hbreak : c₀ ≠ '\n')
    (hfailure : (ofSource layout source).tape.failure = none)
    (houtside : Source.isOutsideBelow layout source above = true) :
    ∃ (ls : List Lexeme) (t : Scanner), t.deferred = [] ∧ t.region = none ∧
      (∀ l ∈ ls.getLast?, l.kind.isInline = false) ∧
      ∀ c cs, c ≠ ' ' → c ≠ '\n' →
        Emits { ofSource layout source with rest := Source.fore layout above lead ++ c :: cs } ls
          { t with rest := c :: cs } := by
  rcases Source.fore_cases layout above hlead with hfore | ⟨width, hfore, hne⟩
  · refine ⟨[], ofSource layout source, rfl, rfl, by simp, fun c cs _ _ => ?_⟩
    rw [hfore]
    exact .refl _
  let front := Source.stripFront (above.map (Source.expandTabs layout))
  let u : Scanner := { ofSource layout source with rest := Source.unlines front }
  have hu : ∀ c cs,
      { ofSource layout source with rest := Source.fore layout above lead ++ c :: cs } =
        u.extend (List.replicate width ' ' ++ c :: cs) := by
    intro c cs
    simp [u, front, extend, hfore]
  have hsource : ofSource layout source = u.extend (List.replicate width ' ' ++ c₀ :: cs₀) := by
    rw [← hu, ← htext]
    rfl
  have hsound := sound_ofSource layout source
  have hemits₀ := exists_emits_extend (hsource ▸ hsound) (hsource ▸ hfailure)
  obtain ⟨ps, v, hdeferred, hrest, hemits⟩ := hemits₀
  have hpass := hemits (List.replicate width ' ' ++ c₀ :: cs₀)
  rw [← hsource] at hpass
  by_cases hregion : ∀ region ∈ v.region, width ≤ region.base
  · rw [hpass.tape.2] at hfailure
    obtain ⟨ls, t, hdeferred', hregion', hls, hinline, hline⟩ :=
      exists_emits_line hdeferred hrest hregion hspace hbreak hfailure
    refine ⟨ps ++ ls, t, hdeferred', hregion', ?_, fun c cs hspace hbreak => ?_⟩
    · rw [List.getLast?_append_of_ne_nil _ hls]
      exact fun l hl => hinline l (List.mem_of_getLast? hl)
    · rw [hu]
      exact (hemits _).trans (hline c cs hspace hbreak)
  -- Otherwise the line is text of the region.
  · simp only [not_forall, Nat.not_le] at hregion
    obtain ⟨region, hregion, hwidth⟩ := hregion
    have hline : v.line = front.length := by
      refine hpass.line_eq_length hrest ?_ hne (Source.not_mem_stripFront_map habove)
      rw [htext, hfore]
      simp [front]
    have hlength := Source.length_stripFront_map layout above
    rw [isOutsideBelow_of_region hpass (hline ▸ hlength) hdeferred hrest hregion hwidth hspace
      hbreak] at houtside
    cases houtside

end Scanner

/-- A tag `div` in front of the shorthand with which a line starts is a lexeme more, and nothing
else changes. -/
theorem tokenize_shorthand {layout : Layout} {source source' : String}
    {above lower : List (List Char)} {lead text : List Char} {mark c : Char} {ls : List Lexeme}
    (hlines : Source.lines source = above ++ (lead ++ mark :: c :: text) :: lower)
    (hlines' : Source.lines source' =
      above ++ (lead ++ ("div".toList ++ mark :: c :: text)) :: lower)
    (hlead : ∀ c ∈ lead, c = ' ' ∨ c = '\t') (hmark : mark = '#' ∨ mark = '.')
    (hc : isName c = true) (htokens : tokenize layout source = .ok ls)
    (houtside : Source.isOutsideBelow layout source above = true) :
    ∃ front l back, ls = front ++ l :: back ∧
      tokenize layout source' = .ok (front ++ ⟨.tag "div", l.line⟩ :: l :: back) ∧
      l.kind.isShorthand = true ∧ ∀ m ∈ front.getLast?, m.kind.isInline = false := by
  have hmargin : Source.isMargin mark = false ∧ Source.isMargin c = false := by
    refine ⟨by rcases hmark with rfl | rfl <;> rfl, Outline.isMargin_of_isTagName ?_⟩
    rw [isTagName, hc, Bool.true_or]
  have htext : Source.normalize layout source = Source.fore layout above lead ++
      mark :: c :: Source.aft layout text lower :=
    Source.normalize_word [mark, c] hlines (List.cons_ne_nil _ _) (by simpa using hmargin)
  have htext' : Source.normalize layout source' = Source.fore layout above lead ++
      ("div".toList ++ mark :: c :: Source.aft layout text lower) :=
    Source.normalize_word ("div".toList ++ [mark, c]) hlines' (List.cons_ne_nil _ _)
      (List.forall_mem_append.2 ⟨by decide, by simpa using hmargin⟩)
  have habove : ∀ l ∈ above, '\n' ∉ l :=
    fun l hl => Source.not_mem_line (hlines ▸ List.mem_append_left _ hl)
  have hspace : mark ≠ ' ' := by rcases hmark with rfl | rfl <;> decide
  have hbreak : mark ≠ '\n' := by rcases hmark with rfl | rfl <;> decide
  rw [tokenize_eq_tape, Tape.result_eq_ok_iff] at htokens
  obtain ⟨hfailure, rfl⟩ := htokens
  obtain ⟨front, t, hdeferred, hregion, hlast, hemits⟩ :=
    Scanner.exists_emits_fore hlead habove htext hspace hbreak hfailure houtside
  obtain ⟨l, t', hl, hshort, hlong⟩ :=
    Scanner.emits_shorthand hdeferred hregion hmark hc (Source.aft layout text lower)
  have hscan : Scanner.Emits (.ofSource layout source) (front ++ [l]) t' := by
    have hscan := (hemits mark _ hspace hbreak).trans hshort
    rw [← htext] at hscan
    exact hscan
  have hscan' :
      Scanner.Emits (.ofSource layout source') (front ++ [⟨.tag "div", l.line⟩, l]) t' := by
    have hscan := (hemits 'd' _ (by decide) (by decide)).trans hlong
    rw [show Source.fore layout above lead ++ 'd' :: _ = _ from htext'.symm] at hscan
    exact hscan
  refine ⟨front, l, t'.tape.lexemes, ?_, ?_, hl, hlast⟩
  · rw [hscan.tape.1, List.append_assoc]
    rfl
  · rw [tokenize_eq_tape, Tape.result_eq_ok_iff, hscan'.tape.2, ← hscan.tape.2, hscan'.tape.1,
      List.append_assoc]
    exact ⟨hfailure, rfl⟩

end Offside
