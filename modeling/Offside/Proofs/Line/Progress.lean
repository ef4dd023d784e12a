import Offside.Proofs.Line.Blank
import Offside.Proofs.Line.Number
import Offside.Proofs.Token.Lookahead

/-!
# Scanning keeps in step with its text

Not every lexeme takes a character off the text: a line that closes levels gives one outdent
for each, and so does the end of the template. But a level has to be opened by a line
break before it can be closed, so there are no more than two lexemes for each character
(`Scanner.length_tape_le`).

The line of a lexeme counts the line breaks up to where scanning has come with it, and it is
the line that the stream reports then, also when the lexeme was only looked at
(`Stream.line_run`). `tokenize_in_step` puts this together for the loop that takes
lexemes up to the end.
-/

set_option autoImplicit false

namespace Offside

namespace Scanner

variable {s s' : Scanner} {l : Lexeme} {ls : List Lexeme}

/-- The lines along a tape never go back. -/
theorem pairwise_line_tape (hs : s.Sound) : s.tape.lexemes.Pairwise (·.line ≤ ·.line) := by
  induction s using tape_induction with
  | error s e s' hnext =>
    rw [tape_of_error hnext]
    exact .nil
  | eos s l s' hnext hl =>
    rw [tape_of_eos hnext hl]
    exact List.pairwise_singleton _ _
  | step s l s' hnext hl ih =>
    have hstep := Step.of_next hnext
    rw [tape_of_ok hnext hl, Tape.lexemes_cons, List.pairwise_cons]
    refine ⟨fun m hm => ?_, ih (hs.step hstep)⟩
    rw [(hstep.line_eq hs).1]
    exact line_le_of_mem_tape (hs.step hstep) m hm

/-- Behind each lexeme the scanner is on its line, which counts the line breaks that were
read up to there. -/
theorem Emits.line_of_next {layout : Layout} {source : String}
    (h : Emits (ofSource layout source) ls s) (hnext : s.next = (.ok l, s')) :
    s'.line = l.line ∧
      ∃ done, Source.normalize layout source = done ++ s'.rest ∧ l.line = done.count '\n' + 1 := by
  have hs := h.sound (sound_ofSource layout source)
  have hstep := Step.of_next hnext
  obtain ⟨done, hdone, -⟩ := h.exists_done
  obtain ⟨text, htext, -⟩ := hstep.exists_text hs
  rw [htext] at hdone
  refine ⟨(hstep.line_eq hs).1.symm, done ++ text, by rw [hdone, List.append_assoc], ?_⟩
  exact (h.line_eq hnext hdone htext).1

/-- The last lexeme of a template is its end, on the last line. -/
theorem exists_front_of_tape {layout : Layout} {source : String}
    (h : (ofSource layout source).tape.failure = none) :
    ∃ front, (ofSource layout source).tape.lexemes =
        front ++ [⟨.eos, (Source.normalize layout source).count '\n' + 1⟩] ∧
      ∀ l ∈ front, l.kind ≠ .eos := by
  obtain ⟨t, hlast, ht⟩ := getLast?_tape h
  obtain ⟨front, hfront⟩ := List.getLast?_eq_some_iff.1 hlast
  have hlexemes : (ofSource layout source).tape.lexemes =
      front.map (·.lexeme) ++ t.lexeme :: [] := by
    rw [Tape.lexemes, hfront, List.map_append]
    rfl
  obtain ⟨s, s', hemits, hnext⟩ := exists_emits_of_lexemes hlexemes
  -- No text is left behind the end, so all line breaks were read.
  obtain ⟨-, -, -, htoken, hrest⟩ :=
    (Step.of_next hnext).end_of_eos (hemits.sound (sound_ofSource layout source)) ht
  obtain ⟨-, done, hdone, hline⟩ := hemits.line_of_next hnext
  rw [hrest, List.append_nil] at hdone
  have heos : t.lexeme = ⟨.eos, (Source.normalize layout source).count '\n' + 1⟩ := by
    rw [hdone, ← hline, ← htoken]
  exact ⟨front.map (·.lexeme), by rw [hlexemes, heos], hemits.kind_ne_eos⟩

end Scanner

/-! ### Streams -/

namespace Stream

variable {s : Stream} {l : Lexeme} {n : Nat}

theorem advance_of_next {scanner scanner' : Scanner} {r : Except ScanError Lexeme}
    (h : scanner.next = (r, scanner')) : (Stream.mk scanner []).advance = (r, ⟨scanner', []⟩) := by
  simp [advance, h]

theorem run_append (s : Stream) (calls calls' : List Call) :
    s.run (calls ++ calls') = (s.run calls).run calls' := by
  induction calls generalizing s with
  | nil => rfl
  | cons call calls ih => exact ih _

/-- Taking lexemes from a stream that has looked at none is scanning them. -/
theorem run_of_emits {scanner scanner' : Scanner} {ls : List Lexeme}
    (h : Scanner.Emits scanner ls scanner') :
    (Stream.mk scanner []).run (List.replicate ls.length .advance) = ⟨scanner', []⟩ := by
  induction h with
  | refl scanner => rfl
  | step hnext hl _ ih =>
    show (Stream.advance _).2.run _ = _
    rw [advance_of_next hnext]
    exact ih

/-- Taking as many lexemes as there are on the tape gives all of them. -/
theorem answers_tape (scanner : Scanner) :
    (Stream.mk scanner []).answers (List.replicate scanner.tape.lexemes.length .advance) =
      scanner.tape.lexemes.map .ok := by
  induction scanner using Scanner.tape_induction with
  | error scanner e scanner' hnext =>
    rw [Scanner.tape_of_error hnext]
    rfl
  | eos scanner l scanner' hnext hl =>
    rw [Scanner.tape_of_eos hnext hl]
    show [(Stream.advance _).1] = _
    rw [advance_of_next hnext]
    rfl
  | step scanner l scanner' hnext hl ih =>
    rw [Scanner.tape_of_ok hnext hl, Tape.lexemes_cons, List.map_cons, ← ih]
    show (Stream.advance _).1 :: (Stream.advance _).2.answers _ = _
    rw [advance_of_next hnext]

/-- One lexeme more is the failure of the tape. -/
theorem answers_tape_of_failure {scanner : Scanner} {e : ScanError}
    (h : scanner.tape.failure = some e) :
    (Stream.mk scanner []).answers (List.replicate (scanner.tape.lexemes.length + 1) .advance) =
      scanner.tape.lexemes.map .ok ++ [.error e] := by
  induction scanner using Scanner.tape_induction with
  | error scanner e' scanner' hnext =>
    rw [Scanner.tape_of_error hnext] at h ⊢
    obtain rfl := Option.some.inj h
    show [(Stream.advance _).1] = _
    rw [advance_of_next hnext]
    rfl
  | eos scanner l scanner' hnext hl =>
    rw [Scanner.tape_of_eos hnext hl] at h
    cases h
  | step scanner l scanner' hnext hl ih =>
    rw [Scanner.tape_of_ok hnext hl] at h ⊢
    rw [Tape.lexemes_cons, List.map_cons, List.cons_append, ← ih h]
    show (Stream.advance _).1 :: (Stream.advance _).2.answers _ = _
    rw [advance_of_next hnext]
    rfl

/-- A scanner that has scanned as many lexemes as it was asked for is on the line of the
last one. -/
theorem line_scanUpTo {scanner : Scanner} (hs : scanner.Sound)
    (h : (scanner.scanUpTo n).1.length = n) :
    (scanner.scanUpTo n).2.line =
      ((scanner.scanUpTo n).1.getLast?.map (·.lexeme.line)).getD scanner.line := by
  induction n generalizing scanner with
  | zero => rfl
  | succ n ih =>
    match hnext : scanner.next with
    | (.error e, scanner') =>
      rw [Scanner.scanUpTo_of_error n hnext] at h
      cases h
    | (.ok l, scanner') =>
      have hstep := Scanner.Step.of_next hnext
      rw [Scanner.scanUpTo_of_ok n hnext] at h ⊢
      -- If this was the last lexeme, the line is its own, and else that of the last one behind it.
      rw [ih (hs.step hstep) (Nat.succ.inj h), List.getLast?_cons, ← (hstep.line_eq hs).1]
      cases (scanner'.scanUpTo n).1.getLast? <;> rfl

/-- Looking ahead finds a lexeme only if all that is missing can be scanned. -/
theorem length_scanUpTo_of_lookAhead (h : (s.lookAhead n).1 = .ok l) :
    (s.scanner.scanUpTo (n + 1 - s.ahead.length)).1.length = n + 1 - s.ahead.length := by
  fun_induction lookAhead n s with
  | case1 scanner first ahead => simp [Scanner.scanUpTo]
  | case2 n scanner first ahead result s hs ih =>
    rw [hs] at ih
    simpa using ih h
  | case3 scanner first scanner' hnext => simp [Scanner.scanUpTo, hnext]
  | case4 scanner e scanner' hnext => cases h
  | case5 n scanner first scanner' hnext result s hs ih =>
    rw [hs] at ih
    simpa [Scanner.scanUpTo_of_ok _ hnext] using ih h
  | case6 n scanner e scanner' hnext => cases h

/-- A call that succeeds scans as much as it has to. -/
theorem length_scans_of_isOk (call : Call) (h : (call.perform s).1.isOk = true) :
    (call.scans s).length = call.demand s := by
  obtain ⟨l, hl⟩ := exists_of_isOk h
  cases call with
  | advance =>
    obtain ⟨scanner, ahead⟩ := s
    cases ahead with
    | nil =>
      cases hnext : scanner.next with
      | mk result scanner' =>
        rw [Call.perform, advance_of_next hnext] at hl
        obtain rfl : result = .ok l := hl
        simp [Call.scans, Call.demand, Scanner.scanUpTo, hnext]
    | cons first ahead => simp [Call.scans, Call.demand, Scanner.scanUpTo]
  | predict n =>
    have hn : n - 1 + 1 = max n 1 := by omega
    have hlength := length_scanUpTo_of_lookAhead (s := s) (n := n - 1) hl
    rwa [hn] at hlength

/-- A stream is on the line of the lexeme that it has scanned last. -/
theorem line_run (hs : s.scanner.Sound) {calls : List Call}
    (hok : ∀ a ∈ s.answers calls, a.isOk = true) :
    (s.run calls).line = ((s.scans calls).getLast?.map (·.lexeme.line)).getD s.line := by
  induction calls generalizing s with
  | nil => rfl
  | cons call calls ih =>
    -- A call that finds its lexeme among those that were looked at scans none.
    obtain ⟨hfirst, hothers⟩ := List.forall_mem_cons.1 hok
    have hsound : (call.perform s).2.scanner.Sound := by
      rw [scanner_perform]
      exact (hs.scanUpTo _).1
    have hline : (call.perform s).2.line =
        ((call.scans s).getLast?.map (·.lexeme.line)).getD s.line := by
      rw [line, scanner_perform]
      exact line_scanUpTo hs (length_scans_of_isOk call hfirst)
    rw [run, ih hsound hothers, scans, List.getLast?_append, hline]
    cases ((call.perform s).2.scans calls).getLast? <;> rfl

end Stream

/-- Scanning a template ends, in step with its text, for every source and every width of tabs.

The answer of `tokenize` is what calls of `advance` answer one after the other, at most two
for each character of the text and one for the end: either lexemes, of which the last one and
no other is the end of the template, on the last line; or lexemes and then a failure. Each
lexeme is on the line that counts the line breaks in what was read when it was
scanned, so lines never go back, and the stream then reports that line. It does so
whatever calls lead to the lexeme, also when it was only looked at. -/
theorem tokenize_in_step (layout : Layout) (source : String) :
    let input := Source.normalize layout source
    let s := Stream.ofSource layout source
    (∃ ls : List Lexeme,
      ((tokenize layout source = .ok ls ∧ ls.length ≤ 2 * input.length + 1 ∧
          s.answers (List.replicate ls.length .advance) = ls.map .ok ∧
          ∃ front, ls = front ++ [⟨.eos, input.count '\n' + 1⟩] ∧ ∀ l ∈ front, l.kind ≠ .eos) ∨
        ∃ e, tokenize layout source = .error e ∧ ls.length ≤ 2 * input.length ∧
          s.answers (List.replicate (ls.length + 1) .advance) = ls.map .ok ++ [.error e] ∧
          ∀ l ∈ ls, l.kind ≠ .eos) ∧
      (∀ k l, ls[k]? = some l →
        let s' := s.run (List.replicate (k + 1) .advance)
        s'.line = l.line ∧
          ∃ done, input = done ++ s'.scanner.rest ∧ l.line = done.count '\n' + 1) ∧
      ls.Pairwise (·.line ≤ ·.line)) ∧
    ∀ calls t, (∀ a ∈ s.answers calls, a.isOk = true) → (s.scans calls).getLast? = some t →
      (s.run calls).line = t.lexeme.line := by
  intro input s
  have hs : s.scanner.Sound := Scanner.sound_ofSource layout source
  have hsize : s.scanner.size = 2 * input.length := rfl
  have hlength : s.scanner.tape.lexemes.length = s.scanner.tape.scans.length := List.length_map _
  refine ⟨⟨s.scanner.tape.lexemes, ?_, ?_, Scanner.pairwise_line_tape hs⟩, ?_⟩
  · rw [tokenize_eq_tape, Tape.result_eq_ok_iff]
    cases hfailure : s.scanner.tape.failure with
    | none =>
      have hle := s.scanner.length_tape_le.1
      exact .inl ⟨⟨hfailure, rfl⟩, by omega, Stream.answers_tape _,
        Scanner.exists_front_of_tape hfailure⟩
    | some e =>
      have hle := s.scanner.length_tape_le.2 e hfailure
      exact .inr ⟨e, Tape.result_eq_error_iff.2 hfailure, by omega,
        Stream.answers_tape_of_failure hfailure, Scanner.kind_ne_eos_of_failure hfailure⟩
  · intro k l hk
    obtain ⟨hlt, rfl⟩ := List.getElem?_eq_some_iff.1 hk
    have hls : s.scanner.tape.lexemes = s.scanner.tape.lexemes.take k ++
        s.scanner.tape.lexemes[k] :: s.scanner.tape.lexemes.drop (k + 1) := by
      rw [List.getElem_cons_drop, List.take_append_drop]
    -- The lexemes in front were scanned first, and the next call scans this one.
    obtain ⟨s₁, s₂, hemits, hnext⟩ := Scanner.exists_emits_of_lexemes hls
    have hrun : s.run (List.replicate k .advance) = ⟨s₁, []⟩ := by
      have hfront := Stream.run_of_emits hemits
      rwa [List.length_take_of_le (Nat.le_of_lt hlt)] at hfront
    have hrun' : s.run (List.replicate (k + 1) .advance) = ⟨s₂, []⟩ := by
      rw [List.replicate_succ', Stream.run_append, hrun]
      exact congrArg Prod.snd (Stream.advance_of_next hnext)
    rw [hrun']
    exact hemits.line_of_next hnext
  · intro calls t hok hlast
    rw [Stream.line_run hs hok, hlast]
    rfl

/-- A line that closes two levels, where tabs have no width: the outdent that was put aside is
on that line, and so is the stream once the outdent was looked at. -/
theorem tokenize_in_step_outdents :
    let layout : Layout := { tabWidth := 0 }
    let source := "ul\n li\t\n  a\np"
    tokenize layout source = .ok
        [⟨.tag "ul", 1⟩, ⟨.indent, 2⟩, ⟨.tag "li", 2⟩, ⟨.indent, 3⟩, ⟨.tag "a", 3⟩, ⟨.outdent, 4⟩,
          ⟨.outdent, 4⟩, ⟨.tag "p", 4⟩, ⟨.eos, 4⟩] ∧
      (∃ done, Source.normalize layout source = done ++
          ((Stream.ofSource layout source).run (List.replicate 7 .advance)).scanner.rest ∧
        4 = done.count '\n' + 1) ∧
      ((Stream.ofSource layout source).scans [.advance, .predict 6]).getLast? =
        some ⟨⟨.outdent, 4⟩, false⟩ ∧
      ((Stream.ofSource layout source).run [.advance, .predict 6]).line = 4 := by
  intro layout source
  have htokens : tokenize layout source = .ok
      [⟨.tag "ul", 1⟩, ⟨.indent, 2⟩, ⟨.tag "li", 2⟩, ⟨.indent, 3⟩, ⟨.tag "a", 3⟩, ⟨.outdent, 4⟩,
        ⟨.outdent, 4⟩, ⟨.tag "p", 4⟩, ⟨.eos, 4⟩] := by
    decide +kernel
  have hok : ∀ a ∈ (Stream.ofSource layout source).answers [.advance, .predict 6],
      a.isOk = true := by
    decide +kernel
  have hscans : ((Stream.ofSource layout source).scans [.advance, .predict 6]).getLast? =
      some ⟨⟨.outdent, 4⟩, false⟩ := by
    decide +kernel
  obtain ⟨⟨ls, hls, hlines, -⟩, hcalls⟩ := tokenize_in_step layout source
  rcases hls with ⟨hls, -⟩ | ⟨e, he, -⟩
  · obtain rfl := Except.ok.inj (htokens.symm.trans hls)
    have hline := (hlines 6 ⟨.outdent, 4⟩ rfl).2
    simp only [Nat.reduceAdd] at hline
    exact ⟨htokens, hline, hscans, hcalls _ _ hok hscans⟩
  · cases htokens.symm.trans he

end Offside
