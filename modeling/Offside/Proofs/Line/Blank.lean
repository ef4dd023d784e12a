import Offside.Proofs.Line.Position
import Offside.Proofs.Token.Hold

/-!
# A blank line in a source

Where a blank line is put between the lines of a source, it is a line break more for the
scanner, and everything in front of it and behind it is scanned as before. In front of it
nothing depends on what follows (`exists_emits_extend`), and behind it the scanner only
stands on a later line (`Alike.continues`).

So the lexemes have the same tokens, with one token more for the blank line
(`tokenize_blank`).
-/

set_option autoImplicit false

namespace Offside

open Offside.Character

namespace Scanner

variable {s s' t u : Scanner} {cs ds : List Char}

/-! ### In front of the blank line -/

/-- In front of a line break, no step depends on what is below it. -/
theorem exists_next_extend (h : u.deferred ≠ [] ∨ u.rest ≠ []) :
    ∃ (r : Except ScanError Lexeme) (u' : Scanner),
      ∀ ds, (u.extend ds).next = (r, u'.extend ds) := by
  cases hdeferred : u.deferred with
  | cons l ls =>
    refine ⟨.ok l, ({ u with deferred := ls }.emit l).2, fun ds => ?_⟩
    simp [next, extend, hdeferred, emit]
  | nil =>
    cases hrest : u.rest with
    | nil => simp [hdeferred, hrest] at h
    | cons c cs =>
      by_cases hc : c = '\n'
      · subst hc
        by_cases hspaces : cs.dropWhile isSpace = []
        · -- The last line is blank, and the line break ends it.
          obtain ⟨width, rfl⟩ : ∃ width, cs = List.replicate width ' ' := by
            refine ⟨cs.length, List.eq_replicate_iff.2 ⟨rfl, fun c hc => ?_⟩⟩
            simpa [isSpace] using List.dropWhile_eq_nil_iff.1 hspaces c hc
          have hrest' : ∀ ds, (u.extend ds).rest =
              '\n' :: (List.replicate width ' ' ++ '\n' :: ds) := by
            intro ds
            simp [extend, hrest]
          cases hregion : u.region with
          | none =>
            exact ⟨.ok ⟨.newline, u.line + 1⟩,
              { u with rest := [], line := u.line + 1, last := some .newline }, fun ds =>
                next_blank (s := u.extend ds) hdeferred hregion (hrest' ds)⟩
          | some region =>
            exact ⟨.ok ⟨.indent, u.line + 1⟩,
              { u with rest := [], line := u.line + 1, last := some .indent }, fun ds =>
                next_verbatimBlank (s := u.extend ds) hdeferred hregion (hrest' ds)⟩
        · refine ⟨(u.breakLine cs).1, (u.breakLine cs).2, fun ds => ?_⟩
          rw [← breakLine_extend ds hspaces]
          simp [next, extend, hdeferred, hrest]
      · have hnext (ds : List Char) := next_of_inline (s := u.extend ds) hdeferred
          (show (u.extend ds).rest = c :: (cs ++ '\n' :: ds) by simp [extend, hrest]) hc
        have hread (ds : List Char) {out} (hout : Reader.outcome u.readInline u.rest = out) :
            Reader.outcome (u.extend ds).readInline (u.extend ds).rest = out.map _ :=
          (u.local_readInline.append u.rest ds).trans (congrArg (Option.map _) hout)
        cases hout : Reader.outcome u.readInline u.rest with
        | none =>
          refine ⟨.error (.unknownToken u.line), u, fun ds => ?_⟩
          have hnext := hnext ds
          rw [hread ds hout] at hnext
          exact hnext
        | some out =>
          refine ⟨.ok ⟨out.1, u.line⟩, ({ u with rest := out.2 }.yield out.1).2, fun ds => ?_⟩
          have hnext := hnext ds
          rw [hread ds hout] at hnext
          exact hnext

/-- A scanner goes on to a line break in the same way, whatever is below it. -/
theorem exists_emits_extend {u : Scanner} {ds : List Char} (hsound : (u.extend ds).Sound)
    (hfailure : (u.extend ds).tape.failure = none) :
    ∃ (ls : List Lexeme) (v : Scanner), v.deferred = [] ∧ v.rest = [] ∧
      ∀ ds, Emits (u.extend ds) ls (v.extend ds) := by
  by_cases hend : u.deferred = [] ∧ u.rest = []
  · exact ⟨[], u, hend.1, hend.2, fun ds => .refl _⟩
  · obtain ⟨r, u', hnext⟩ := exists_next_extend (u := u) (by
      by_contra hnot
      simp only [not_or, not_not] at hnot
      exact hend hnot)
    match r with
    | .error e =>
      rw [tape_of_error (hnext ds)] at hfailure
      cases hfailure
    | .ok l =>
      have hl : l.kind ≠ .eos := by
        intro heos
        have hrest := ((Step.of_next (hnext ds)).end_of_eos hsound heos).2.1
        simp [extend] at hrest
      have hlt : u'.size < u.size := by
        have hlt := size_lt_of_next (hnext ds) hl
        simp only [size, extend, List.length_append] at hlt ⊢
        omega
      rw [tape_of_ok (hnext ds) hl] at hfailure
      obtain ⟨ls, v, hdeferred, hrest, hemits⟩ :=
        exists_emits_extend (hsound.step (.of_next (hnext ds))) hfailure
      exact ⟨l :: ls, v, hdeferred, hrest, fun ds => .step (hnext ds) hl (hemits ds)⟩
termination_by u.size

/-! ### Behind the blank line -/

variable {l : Lexeme}

/-- What a scanner does at a line break does not depend on the token in front. -/
theorem breakLine_last (last : Option Token.Kind)
    (h : s.breakLine cs = (.ok l, s')) : { s with last }.breakLine cs = (.ok l, s') := by
  have hindent : ∀ {s : Scanner} (width : Nat), s.indentTo width = (.ok l, s') →
      { s with last }.indentTo width = (.ok l, s') := by
    intro s width h
    unfold indentTo at h ⊢
    split at h
    · next heq =>
      rw [if_pos heq]
      exact h
    · next hne =>
      rw [if_neg hne]
      split at h
      · next hlt =>
        rw [if_pos hlt]
        exact h
      · next hnot =>
        rw [if_neg hnot]
        split at h
        · next hclose =>
          dsimp only
          rw [hclose]
          exact h
        · cases h
  unfold breakLine at h ⊢
  dsimp only at h ⊢
  cases hregion : s.region with
  | none =>
    rw [hregion] at h
    dsimp only at h ⊢
    split at h
    · next hblank =>
      rw [if_pos hblank]
      exact h
    · next hblank =>
      rw [if_neg hblank]
      exact hindent _ h
  | some region =>
    rw [hregion] at h
    dsimp only at h ⊢
    split at h
    · next hblank =>
      rw [if_pos hblank]
      exact h
    · next hblank =>
      rw [if_neg hblank]
      split at h
      · next hlt =>
        rw [if_pos hlt]
        exact h
      · next hnot =>
        rw [if_neg hnot]
        exact hindent _ h

/-- A blank line is a token of its own, and nothing else changes below it. -/
theorem tape_extend_blank {v : Scanner} (hdeferred : v.deferred = []) (hrest : v.rest = [])
    (hsound : (v.extend ds).Sound) (hfailure : (v.extend ds).tape.failure = none) (width : Nat) :
    ∃ x ls, (v.extend (List.replicate width ' ' ++ '\n' :: ds)).tape.failure = none ∧
      (v.extend (List.replicate width ' ' ++ '\n' :: ds)).tape.lexemes = x :: ls ∧
      x.token = (if v.region.isSome then .indent else .newline) ∧
      ls.map (·.token) = (v.extend ds).tape.lexemes.map (·.token) := by
  have hbreak : (v.extend ds).next = (v.extend ds).breakLine ds := by
    simp [next, extend, hdeferred, hrest]
  cases hnext : (v.extend ds).next with
  | mk r s' =>
    cases r with
    | error e =>
      rw [tape_of_error hnext] at hfailure
      cases hfailure
    | ok l =>
      have hl : l.kind ≠ .eos := by
        intro heos
        have hnil := ((Step.of_next hnext).end_of_eos hsound heos).2.1
        simp [extend] at hnil
      -- The scanner behind the blank line is on another line, behind another token.
      have hlater : ∀ last, ∃ l' t',
          { v.extend ds with line := v.line + 1, last }.next = (.ok l', t') ∧
            l'.token = l.token ∧ Alike s' t' := by
        intro last
        have halike : Alike (v.extend ds) { v.extend ds with line := v.line + 1 } :=
          ⟨rfl, rfl, rfl, rfl, rfl, rfl⟩
        obtain ⟨l', t', hlater, htoken, halike'⟩ :=
          halike.breakLine ds l s' (hbreak.symm.trans hnext)
        refine ⟨l', t', ?_, htoken, halike'⟩
        rw [← breakLine_last last hlater]
        simp [next, extend, hdeferred, hrest]
      have hblank : ∃ last, (v.extend (List.replicate width ' ' ++ '\n' :: ds)).next =
          (.ok ⟨if v.region.isSome then .indent else .newline, v.line + 1⟩,
            { v.extend ds with line := v.line + 1, last }) := by
        have hrest' : (v.extend (List.replicate width ' ' ++ '\n' :: ds)).rest =
            '\n' :: (List.replicate width ' ' ++ '\n' :: ds) := by
          simp [extend, hrest]
        cases hregion : v.region with
        | none =>
          refine ⟨some .newline, ?_⟩
          rw [next_blank (s := v.extend _) hdeferred hregion hrest']
          simp [extend, hrest]
        | some region =>
          refine ⟨some .indent, ?_⟩
          rw [next_verbatimBlank (s := v.extend _) hdeferred hregion hrest']
          simp [extend, hrest]
      obtain ⟨last, hblank⟩ := hblank
      obtain ⟨l', t', hlater, htoken, halike⟩ := hlater last
      have hx : (Lexeme.mk (if v.region.isSome then .indent else .newline)
          (v.line + 1)).kind ≠ .eos := by
        unfold Lexeme.kind
        split <;> simp [Token.kind]
      have hl' : l'.kind ≠ .eos := by rwa [Lexeme.kind, htoken]
      rw [tape_of_ok hnext hl] at hfailure
      obtain ⟨hfailure', htokens, -⟩ := halike.continues hfailure
      rw [tape_of_ok hblank hx, tape_of_ok hlater hl', tape_of_ok hnext hl]
      refine ⟨_, _, hfailure', rfl, rfl, ?_⟩
      show l'.token :: t'.tape.lexemes.map (·.token) = l.token :: s'.tape.lexemes.map (·.token)
      rw [htoken, htokens]

/-! ### Lines of lexemes -/

/-- A lexeme is on the line behind it, which is not above that in front of it. -/
theorem Step.line_eq (hsound : s.Sound) (h : Step s (.ok l) s') :
    l.line = s'.line ∧ s.line ≤ s'.line := by
  cases h with
  | deferred l ls hdeferred =>
    obtain rfl := hsound.deferred l (by simp [hdeferred])
    exact ⟨rfl, Nat.le_refl _⟩
  | close | eos | token => exact ⟨rfl, Nat.le_refl _⟩
  | _ => exact ⟨rfl, Nat.le_succ _⟩

variable {ls : List Lexeme}

theorem Emits.line_le (h : Emits s ls s') (hsound : s.Sound) :
    s.line ≤ s'.line ∧ ∀ l ∈ ls, l.line ≤ s'.line := by
  induction h with
  | refl s => exact ⟨Nat.le_refl _, nofun⟩
  | step hnext hl _ ih =>
    have hstep := Step.of_next hnext
    obtain ⟨hle, hlines⟩ := ih (hsound.step hstep)
    obtain ⟨hline, hle'⟩ := hstep.line_eq hsound
    refine ⟨Nat.le_trans hle' hle, ?_⟩
    intro l hmem
    rcases List.mem_cons.1 hmem with rfl | hmem
    · rwa [hline]
    · exact hlines l hmem

theorem line_le_of_mem_tape (hsound : s.Sound) : ∀ l ∈ s.tape.lexemes, s.line ≤ l.line := by
  induction s using tape_induction with
  | error s e s' hnext =>
    rw [tape_of_error hnext]
    exact nofun
  | eos s l s' hnext hl =>
    obtain ⟨hline, hle⟩ := (Step.of_next hnext).line_eq hsound
    rw [tape_of_eos hnext hl]
    intro m hm
    obtain rfl : m = l := List.mem_singleton.1 hm
    omega
  | step s l s' hnext hl ih =>
    obtain ⟨hline, hle⟩ := (Step.of_next hnext).line_eq hsound
    rw [tape_of_ok hnext hl, Tape.lexemes_cons]
    intro m hm
    rcases List.mem_cons.1 hm with rfl | hm
    · omega
    · have hlater := ih (hsound.step (.of_next hnext)) m hm
      omega

/-- At a line break the next line starts. -/
theorem Step.of_break (hdeferred : s.deferred = []) (hrest : s.rest = '\n' :: cs)
    (h : Step s (.ok l) s') : s'.line = s.line + 1 ∧
      (l.kind = .newline ∨ l.kind = .indent ∨ l.kind = .outdent) := by
  cases h with
  | deferred l ls hne => simp [hdeferred] at hne
  | close _ _ _ hnil | eos _ hnil => simp [hrest] at hnil
  | token c cs token rest _ hinline hc =>
    rw [hrest] at hinline
    exact absurd (List.cons.inj hinline).1.symm hc
  | _ => exact ⟨rfl, by simp [Lexeme.kind, Token.kind]⟩

/-- At a line break all lexemes that follow are on later lines. -/
theorem line_lt_of_mem_tape (hdeferred : s.deferred = []) (hrest : s.rest = '\n' :: cs)
    (hsound : s.Sound) : ∀ l ∈ s.tape.lexemes, s.line < l.line := by
  cases hnext : s.next with
  | mk r s' =>
    match r with
    | .error e =>
      rw [tape_of_error hnext]
      exact nofun
    | .ok l =>
      have hstep := Step.of_next hnext
      obtain ⟨hline, hkind⟩ := hstep.of_break hdeferred hrest
      have hl : l.kind ≠ .eos := by
        intro heos
        simp [heos] at hkind
      have hfirst := (hstep.line_eq hsound).1
      have hothers := line_le_of_mem_tape (hsound.step hstep)
      rw [tape_of_ok hnext hl, Tape.lexemes_cons]
      intro m hm
      rcases List.mem_cons.1 hm with rfl | hm
      · omega
      · have hlater := hothers m hm
        omega

/-! ### The blank line among the lexemes -/

theorem Emits.rest_suffix (h : Emits s ls s') : s'.rest <:+ s.rest := by
  induction h with
  | refl s => exact List.suffix_refl _
  | step hnext hl _ ih => exact ih.trans (Step.of_next hnext).rest_suffix

theorem Emits.holding {h : Hold} (hemits : Emits s ls s') (hsound : s.Sound)
    (hs : s.Holding h) : s'.Holding (h.behind ls) := by
  induction hemits generalizing h with
  | refl s => exact hs
  | step hnext hl _ ih =>
    have hstep := Step.of_next hnext
    exact ih (hsound.step hstep) (hs.step hsound hstep)

/-- What is scanned in front of a blank line stays in front of it. -/
theorem Emits.inserts {ls' : List Lexeme} {h : Hold} (hemits : Emits s ls s')
    (hsound : s.Sound) (hs : s.Holding h) (htidy : Tidy s.rest) (hfailure : s.tape.failure = none)
    (hinserts : Inserts (h.behind ls) s'.tape.lexemes ls') :
    Inserts h s.tape.lexemes (ls ++ ls') := by
  induction hemits generalizing h with
  | refl s => exact hinserts
  | step hnext hl _ ih =>
    have hstep := Step.of_next hnext
    rw [tape_of_ok hnext hl] at hfailure ⊢
    exact .cons rfl (hs.fits hsound htidy hnext hfailure)
      (ih (hsound.step hstep) (hs.step hsound hstep) (htidy.of_suffix hstep.rest_suffix) hfailure
        hinserts)

/-- Behind lexemes that it does not sever, a blank line is inserted. -/
theorem inserts_blank {v : Scanner} (hdeferred : v.deferred = [])
    (hrest : v.rest = []) (hsound : (v.extend ds).Sound)
    (hs : (v.extend ds).Holding (Hold.free.behind ls)) (htidy : Tidy (v.extend ds).rest)
    (hfailure : (v.extend ds).tape.failure = none)
    (hsevers : ¬Severs ls (v.extend ds).tape.lexemes) (width : Nat) :
    (v.extend (List.replicate width ' ' ++ '\n' :: ds)).tape.failure = none ∧
      Inserts (Hold.free.behind ls) (v.extend ds).tape.lexemes
        (v.extend (List.replicate width ' ' ++ '\n' :: ds)).tape.lexemes := by
  have hrest' : (v.extend ds).rest = '\n' :: ds := by simp [extend, hrest]
  obtain ⟨x, ls', hfailure', hlexemes', hx, htokens⟩ :=
    tape_extend_blank hdeferred hrest hsound hfailure width
  refine ⟨hfailure', ?_⟩
  rw [hlexemes']
  cases hnext : (v.extend ds).next with
  | mk r s' =>
    cases r with
    | error e =>
      rw [tape_of_error hnext] at hfailure
      cases hfailure
    | ok b =>
      have hb := ((Step.of_next hnext).of_break (s := v.extend ds) hdeferred hrest').2
      have hl : b.kind ≠ .eos := by
        intro heos
        simp [heos] at hb
      have hlexemes : (v.extend ds).tape.lexemes = b :: s'.tape.lexemes := by
        rw [tape_of_ok hnext hl]
        rfl
      rw [tape_of_ok hnext hl] at hfailure
      rw [hlexemes] at hsevers htokens ⊢
      cases ls' with
      | nil => cases htokens
      | cons b' ls' =>
        have hregion := hs.region (by simp [hrest'])
        refine .blank ?_ hb (hs.fits hsound htidy hnext hfailure) ?_ ?_ ?_ htokens
        · rw [hx, ← hregion]
          rfl
        · intro t hbroken
          exact hs.broken t hbroken (by rw [hrest']; rfl)
        · intro t hcode hnewline m hm htext
          obtain ⟨below, hbelow⟩ := List.head?_eq_some_iff.1 (Option.mem_def.1 hm)
          obtain ⟨front, l, rfl, hl, -⟩ := Hold.exists_of_behind_code hcode
          exact hsevers ⟨[l], (List.mem_tails _ _).2 (List.suffix_append front [l]), hl,
            by simp [hbelow, hnewline, htext]⟩
        · intro t hloose hindent
          refine ⟨?_, fun m hm htext => ?_⟩
          · by_contra ht
            exact hsevers (severs_of_loose hloose (.inr ⟨by simpa using ht, by simp [hindent]⟩))
          · obtain ⟨below, hbelow⟩ := List.head?_eq_some_iff.1 (Option.mem_def.1 hm)
            exact hsevers (severs_of_loose hloose (.inl (by simp [hbelow, hindent, htext])))

end Scanner

/-! ### Lines with a blank line between them -/

namespace Source

variable {layout : Layout} {source source' : String} {above lower : List (List Char)} {width : Nat}

theorem isMarginal_expandTabs (layout : Layout) (l : List Char) :
    isMarginal (expandTabs layout l) = isMarginal l := by
  induction l with
  | nil => rfl
  | cons c cs ih =>
    have hcons : expandTabs layout (c :: cs) =
        (if c = '\t' then List.replicate layout.tabWidth ' ' else [c]) ++
          expandTabs layout cs := rfl
    have hc : (if c = '\t' then List.replicate layout.tabWidth ' ' else [c]).all isMargin =
        isMargin c := by
      split
      · next htab =>
        rw [htab, List.all_eq_true.2 fun d hd => by rw [List.eq_of_mem_replicate hd]; rfl]
        rfl
      · simp
    rw [hcons, isMarginal, List.all_append, hc]
    exact congrArg (isMargin c && ·) ih

variable {ls : List (List Char)}

/-- Lines are counted by the breaks between them. -/
theorem count_unlines (hne : ls ≠ []) (h : ∀ l ∈ ls, '\n' ∉ l) :
    (unlines ls).count '\n' + 1 = ls.length := by
  have hbelow : ∀ ls : List (List Char), (∀ l ∈ ls, '\n' ∉ l) →
      (below ls).count '\n' = ls.length := by
    intro ls h
    induction ls with
    | nil => rfl
    | cons l ls ih =>
      have hl : l.count '\n' = 0 := List.count_eq_zero_of_not_mem (h l (.head _))
      rw [below_cons, List.count_cons_self, List.count_append, hl, Nat.zero_add,
        ih fun l hl => h l (.tail _ hl), List.length_cons]
  cases ls with
  | nil => exact absurd rfl hne
  | cons l ls =>
    have hl : l.count '\n' = 0 := List.count_eq_zero_of_not_mem (h l (.head _))
    rw [unlines_cons, List.count_append, hl, hbelow ls fun l hl => h l (.tail _ hl), Nat.zero_add,
      List.length_cons]

theorem length_stripFront (ls : List (List Char)) :
    (stripFront ls).length + (ls.takeWhile isMarginal).length = ls.length := by
  have happ := congrArg List.length (List.takeWhile_append_dropWhile (p := isMarginal) (l := ls))
  rw [List.length_append] at happ
  rw [stripFront, List.length_modifyHead]
  omega

theorem stripFront_ne_nil (h : ∃ l ∈ ls, isMarginal l = false) : stripFront ls ≠ [] := by
  rw [stripFront, ne_eq, List.modifyHead_eq_nil_iff, List.dropWhile_eq_nil_iff]
  simpa using h

theorem stripBack_ne_nil (h : ∃ l ∈ ls, isMarginal l = false) : stripBack ls ≠ [] := by
  rw [stripBack, ne_eq, List.reverse_eq_nil_iff, List.modifyHead_eq_nil_iff,
    List.dropWhile_eq_nil_iff]
  simpa using h

/-- Lines in front that hold nothing but margin are not counted, whatever their tabs become. -/
theorem length_stripFront_map (layout : Layout) (ls : List (List Char)) :
    (stripFront (ls.map (expandTabs layout))).length + (ls.takeWhile isMarginal).length =
      ls.length := by
  have hlength := length_stripFront (ls.map (expandTabs layout))
  have hexpand : isMarginal ∘ expandTabs layout = isMarginal :=
    funext (isMarginal_expandTabs layout)
  rwa [List.takeWhile_map, List.length_map, List.length_map, hexpand] at hlength

theorem not_mem_stripFront_map (h : ∀ l ∈ ls, '\n' ∉ l) :
    ∀ l ∈ stripFront (ls.map (expandTabs layout)), '\n' ∉ l := by
  intro l hl hmem
  obtain ⟨l', hl', hmem'⟩ := mem_of_mem_stripFront hl hmem
  obtain ⟨l, hl, rfl⟩ := List.mem_map.1 hl'
  rcases (Outline.mem_expandTabs hmem').2 with heq | hmem'
  · cases heq
  · exact h l hl hmem'

/-- A blank line that is not among the margin of a source stands between two lines of it. -/
theorem normalize_blank (layout : Layout) (hlines : lines source = above ++ lower)
    (hlines' : lines source' = above ++ List.replicate width ' ' :: lower) :
    normalize layout source' = normalize layout source ∨
      ∃ (front : List (List Char)) (back : List Char),
        normalize layout source = unlines front ++ '\n' :: back ∧
        normalize layout source' =
          unlines front ++ '\n' :: (List.replicate width ' ' ++ '\n' :: back) ∧
        front ≠ [] ∧ (∀ l ∈ front, '\n' ∉ l) ∧
        front.length + (above.takeWhile isMarginal).length = above.length := by
  let blank := List.replicate width ' '
  let expand := expandTabs layout
  have hblank : expand blank = blank :=
    Outline.expandTabs_of_not_mem layout fun hmem => nomatch List.eq_of_mem_replicate hmem
  have hmarginal : isMarginal blank = true := by
    rw [isMarginal, List.all_eq_true]
    intro c hc
    rw [List.eq_of_mem_replicate hc]
    rfl
  rw [normalize_eq, normalize_eq, hlines, hlines', List.map_append, List.map_append, List.map_cons]
  rw [show expandTabs layout (List.replicate width ' ') = blank from hblank]
  by_cases habove : ∀ l ∈ above.map expand, isMarginal l = true
  · left
    have hall : ∀ l ∈ above.map expand ++ [blank], isMarginal l = true := by
      intro l hl
      rcases List.mem_append.1 hl with hl | hl
      · exact habove l hl
      · rwa [List.mem_singleton.1 hl]
    rw [List.append_cons, strip, strip, stripFront_append_of_all hall,
      stripFront_append_of_all habove]
  have hany : ∃ l ∈ above.map expand, isMarginal l = false := by simpa using habove
  rw [strip, strip, stripFront_append_of_any hany, stripFront_append_of_any hany]
  by_cases hlower : ∀ l ∈ lower.map expand, isMarginal l = true
  · left
    have hall : ∀ l ∈ blank :: lower.map expand, isMarginal l = true :=
      List.forall_mem_cons.2 ⟨hmarginal, hlower⟩
    rw [stripBack_append_of_all hall, stripBack_append_of_all hlower]
  have hany' : ∃ l ∈ lower.map expand, isMarginal l = false := by simpa using hlower
  right
  obtain ⟨first, others, hothers⟩ := List.exists_cons_of_ne_nil (stripBack_ne_nil hany')
  have hne := stripFront_ne_nil hany
  refine ⟨stripFront (above.map expand), unlines (stripBack (lower.map expand)), ?_, ?_, hne, ?_,
    length_stripFront_map layout above⟩
  · rw [stripBack_append_of_any hany', unlines_append hne, hothers, below_cons, unlines_cons]
  · rw [List.append_cons, stripBack_append_of_any hany', List.append_assoc, unlines_append hne,
      hothers, List.singleton_append, below_cons, below_cons, unlines_cons]
  · exact not_mem_stripFront_map fun l hl => not_mem_line (hlines ▸ List.mem_append_left _ hl)

end Source

/-- At a line break a scanner is on the last of the lines in front of it. -/
theorem Scanner.Emits.line_eq_length {layout : Layout} {source : String}
    {front : List (List Char)} {back : List Char} {ls : List Lexeme} {v : Scanner}
    (h : Emits (.ofSource layout source) ls (v.extend back)) (hrest : v.rest = [])
    (htext : Source.normalize layout source = Source.unlines front ++ '\n' :: back)
    (hne : front ≠ []) (hbreaks : ∀ l ∈ front, '\n' ∉ l) : v.line = front.length := by
  obtain ⟨above, inline, hplaced⟩ :=
    h.placed (Scanner.sound_ofSource layout source) (Scanner.placed_ofSource layout source)
  have hrest' : (v.extend back).rest = '\n' :: back := by simp [Scanner.extend, hrest]
  have hnumber : v.line = above.count '\n' + 1 := hplaced.number
  have hinline : inline.count '\n' = 0 := List.count_eq_zero_of_not_mem hplaced.inline
  have hcut := hplaced.eq
  rw [htext, ← List.append_assoc, hrest'] at hcut
  rw [← Source.count_unlines hne hbreaks, List.append_cancel_right hcut, List.count_append]
  omega

/-- Whether a lexeme is on one of the lines above. Lines at the start of a source that hold
nothing but margin are not counted. -/
def Lexeme.isAbove (above : List (List Char)) (l : Lexeme) : Bool :=
  l.line + (above.takeWhile Source.isMarginal).length ≤ above.length

/-- A blank line below some lines of a source would sever the lexemes of these lines from
the ones that follow. -/
def Source.SeversBelow (layout : Layout) (source : String) (above : List (List Char)) : Prop :=
  ∃ ls ∈ (tokenize layout source).toOption,
    Severs (ls.takeWhile (·.isAbove above)) (ls.dropWhile (·.isAbove above))

instance (layout : Layout) (source : String) (above : List (List Char)) :
    Decidable (Source.SeversBelow layout source above) :=
  inferInstanceAs (Decidable (∃ ls ∈ (tokenize layout source).toOption, _))

/-- A blank line leaves the lexemes as they are, or is one more among them, if it severs
nothing. -/
theorem tokenize_blank {layout : Layout} {source source' : String} {above lower : List (List Char)}
    {width : Nat} {ls : List Lexeme} (hlines : Source.lines source = above ++ lower)
    (hlines' : Source.lines source' = above ++ List.replicate width ' ' :: lower)
    (htokens : tokenize layout source = .ok ls)
    (hsevers : ¬Source.SeversBelow layout source above) :
    ∃ ls', tokenize layout source' = .ok ls' ∧ (ls' = ls ∨ Inserts .free ls ls') := by
  have hsevers : ¬Severs (ls.takeWhile (·.isAbove above)) (ls.dropWhile (·.isAbove above)) :=
    fun hsevers' => hsevers ⟨ls, by rw [htokens]; rfl, hsevers'⟩
  rcases Source.normalize_blank layout hlines hlines' with heq | ⟨front, back, htext, htext', hne,
    hbreaks, hlength⟩
  · refine ⟨ls, ?_, .inl rfl⟩
    rw [tokenize_eq_tape] at htokens ⊢
    rwa [show Scanner.ofSource layout source' = Scanner.ofSource layout source by
      simp [Scanner.ofSource, heq]]
  · let u : Scanner := { Scanner.ofSource layout source with rest := Source.unlines front }
    have hu : Scanner.ofSource layout source = u.extend back := by
      simp [u, Scanner.ofSource, Scanner.extend, htext]
    have hu' : Scanner.ofSource layout source' =
        u.extend (List.replicate width ' ' ++ '\n' :: back) := by
      simp [u, Scanner.ofSource, Scanner.extend, htext']
    have hsound := Scanner.sound_ofSource layout source
    have hholding : (Scanner.ofSource layout source).Holding .free :=
    .of_free (fun _ => rfl) rfl (by rintro ⟨⟩)
    have htidy : Scanner.Tidy (Scanner.ofSource layout source).rest :=
      Source.isMargin_getLast_normalize layout source
    rw [tokenize_eq_tape, Tape.result_eq_ok_iff] at htokens
    obtain ⟨hfailure, rfl⟩ := htokens
    rw [hu] at hsound hholding htidy hfailure hsevers ⊢
    obtain ⟨ps, v, hdeferred, hrest, hemits⟩ := Scanner.exists_emits_extend hsound hfailure
    obtain ⟨hlexemes, hfailure'⟩ := (hemits back).tape
    have hsound' := (hemits back).sound hsound
    have hrest' : (v.extend back).rest = '\n' :: back := by simp [Scanner.extend, hrest]
    -- The lines above are those in front of the break.
    have hline : v.line = front.length :=
      Scanner.Emits.line_eq_length (hu ▸ hemits back) hrest htext hne hbreaks
    have hpass : ∀ l ∈ ps, l.isAbove above = true := by
      intro l hl
      have hle : l.line ≤ v.line := ((hemits back).line_le hsound).2 l hl
      simp only [Lexeme.isAbove, decide_eq_true_eq]
      omega
    have hstop : ∀ l ∈ (v.extend back).tape.lexemes.head?, l.isAbove above = false := by
      intro l hl
      have hlt : v.line < l.line :=
        Scanner.line_lt_of_mem_tape (s := v.extend back) hdeferred hrest' hsound' l
          (List.mem_of_head? hl)
      simp only [Lexeme.isAbove, decide_eq_false_iff_not]
      omega
    rw [hlexemes, takeWhile_append_of_stop hpass hstop,
      dropWhile_append_of_stop hpass hstop] at hsevers
    obtain ⟨hfailure'', hinserts⟩ := Scanner.inserts_blank hdeferred hrest hsound'
      ((hemits back).holding hsound hholding) (htidy.of_suffix (hemits back).rest_suffix)
      (hfailure' ▸ hfailure) hsevers width
    obtain ⟨hlexemes', hfailures⟩ := (hemits (List.replicate width ' ' ++ '\n' :: back)).tape
    refine ⟨_, ?_, .inr ((hemits back).inserts hsound hholding htidy hfailure hinserts)⟩
    rw [tokenize_eq_tape, Tape.result_eq_ok_iff, hu', hfailures, hlexemes']
    exact ⟨hfailure'', rfl⟩

end Offside
