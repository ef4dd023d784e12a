import Offside.Proofs.Line.Source
import Offside.Proofs.Token.Lines
import Offside.Proofs.Token.Seam

/-!
# Where a scanner stands

A scanner does not know its place in the text, but the place can be told from what is left
of the text: the lines above, and the part of the current line that was read already
(`Scanner.Placed`). The number of the current line is that of the lines above, and outside
of verbatim regions the current level is the width of the current line.
-/

set_option autoImplicit false

namespace Offside

open Offside.Character

/-- What a reader takes off the front of a text holds no line break. -/
theorem Character.Reader.Local.exists_taken {α : Type} {reader : Reader α} (h : reader.Local)
    {cs rest : List Char} {a : α} (hread : reader.outcome cs = some (a, rest)) :
    ∃ taken, cs = taken ++ rest ∧ '\n' ∉ taken := by
  have hcs : line cs ++ afterLine cs = cs := List.takeWhile_append_dropWhile
  have hline : '\n' ∉ line cs := by
    intro hmem
    simpa using List.mem_takeWhile_imp hmem
  cases hafter : afterLine cs with
  | nil =>
    rw [hafter, List.append_nil] at hcs
    rw [hcs] at hline
    obtain ⟨taken, rfl⟩ := h.suffix hread
    exact ⟨taken, rfl, fun hmem => hline (List.mem_append_left _ hmem)⟩
  | cons c below =>
    -- Only the first line is read, whatever follows behind it.
    have hc : c = '\n' := by
      have hhead := List.head?_dropWhile_not (· ≠ '\n') cs
      rw [afterLine] at hafter
      rw [hafter] at hhead
      simpa using hhead
    subst hc
    rw [hafter] at hcs
    rw [← hcs, h.append] at hread
    obtain ⟨⟨_, left⟩, hout, heq⟩ := Option.map_eq_some_iff.1 hread
    obtain ⟨rfl, rfl⟩ := Prod.mk.inj heq
    obtain ⟨taken, htaken⟩ := h.suffix hout
    refine ⟨taken, ?_, fun hmem => hline (htaken ▸ List.mem_append_left _ hmem)⟩
    rw [← List.append_assoc, htaken, hcs]

namespace Scanner

/-- The place of a scanner in a text: what is above its line, and what was read of it. -/
structure Placed (text : List Char) (s : Scanner) (above front : List Char) : Prop where
  eq : text = above ++ (front ++ s.rest)
  /-- What is above ends with a line break. -/
  last : ∀ c ∈ above.getLast?, c = '\n'
  inline : '\n' ∉ front
  number : s.line = above.count '\n' + 1
  current : s.region = none → s.rest ≠ [] → isBlankLine (front ++ s.rest) = false →
    s.indents.current = lineWidth (front ++ s.rest)

/-- The scanner of a template starts at its first line, which has no width. -/
theorem placed_ofSource (layout : Layout) (source : String) :
    Placed (Source.normalize layout source) (ofSource layout source) [] [] where
  eq := rfl
  last := by simp
  inline := List.not_mem_nil
  number := rfl
  current := by
    intro _ hne _
    obtain ⟨c, cs, hcs⟩ := List.exists_cons_of_ne_nil hne
    have hmargin := Source.isMargin_head_normalize layout source c
      (by rw [show Source.normalize layout source = c :: cs from hcs]; rfl)
    have hspace : isSpace c = false := by
      simp only [Source.isMargin, Bool.or_eq_false_iff] at hmargin
      exact hmargin.1.1.1.1.1
    rw [hcs, List.nil_append, lineWidth, List.takeWhile_cons_of_neg (by simp [hspace])]
    rfl

section

variable {text above front : List Char} {s s' : Scanner} {l : Lexeme}

/-- Behind a line break a new line starts. -/
theorem Placed.toLine (h : Placed text s above front) {cs : List Char} (hrest : s.rest = '\n' :: cs)
    (hline : s'.line = s.line + 1) (hrest' : s'.rest = cs.dropWhile isSpace)
    (hcurrent : s'.region = none → isBlankLine cs = false → s'.indents.current = lineWidth cs) :
    Placed text s' (above ++ front ++ ['\n']) (cs.takeWhile isSpace) := by
  have hcs : cs.takeWhile isSpace ++ s'.rest = cs := by
    rw [hrest', List.takeWhile_append_dropWhile]
  refine ⟨?_, by simp, ?_, ?_, ?_⟩
  · rw [hcs, h.eq, hrest]
    simp
  · intro hmem
    simpa [isSpace] using List.mem_takeWhile_imp hmem
  · have hfront : front.count '\n' = 0 := List.count_eq_zero_of_not_mem h.inline
    rw [hline, h.number, List.count_append, List.count_append, hfront]
    rfl
  · intro hregion _ hblank
    rw [hcs] at hblank ⊢
    exact hcurrent hregion hblank

/-- Every step leads to another place of the text. -/
theorem Placed.step (hs : s.Sound) (h : Placed text s above front) (hstep : Step s (.ok l) s') :
    ∃ above' front', Placed text s' above' front' := by
  cases hstep with
  | deferred l ls hdeferred =>
    obtain rfl := hs.deferred l (by simp [hdeferred])
    exact ⟨above, front, h.eq, h.last, h.inline, h.number, h.current⟩
  | close width opened hdeferred hrest hopened =>
    exact ⟨above, front, h.eq, h.last, h.inline, h.number, fun _ hne => absurd hrest hne⟩
  | eos hdeferred hrest hopened =>
    exact ⟨above, front, h.eq, h.last, h.inline, h.number, h.current⟩
  | token c cs token rest hdeferred hrest hc hread =>
    -- The line goes on: what was read of it has become longer.
    obtain ⟨taken, htaken, hinline⟩ := s.local_readInline.exists_taken
      (show Reader.outcome s.readInline s.rest = some (token, rest.1) by
        rw [Reader.outcome, hread]; rfl)
    have hline : front ++ taken ++ rest.1 = front ++ s.rest := by
      rw [List.append_assoc, ← htaken]
    refine ⟨above, front ++ taken, ?_, h.last, ?_, h.number, ?_⟩
    · rw [h.eq, ← hline]
      rfl
    · rw [List.mem_append, not_or]
      exact ⟨h.inline, hinline⟩
    · intro hregion _ hblank
      have hline' : front ++ taken ++ ({ s with rest := rest.1 }.emit ⟨token, s.line⟩).2.rest =
          front ++ s.rest := hline
      rw [hline'] at hblank ⊢
      exact h.current (region_emit_eq_none.1 hregion).2 (by simp [hrest]) hblank
  | blank cs hdeferred hrest hregion hblank =>
    refine ⟨_, _, h.toLine hrest rfl rfl fun _ hblank' => ?_⟩
    rw [hblank] at hblank'
    cases hblank'
  | verbatimBlank cs region hdeferred hrest hregion hblank =>
    refine ⟨_, _, h.toLine hrest rfl rfl fun _ hblank' => ?_⟩
    rw [hblank] at hblank'
    cases hblank'
  | verbatimLine cs region hdeferred hrest hregion hblank hwidth =>
    exact ⟨_, _, h.toLine hrest rfl rfl fun hnone => by cases hnone⟩
  | same cs hdeferred hrest hregion hblank hwidth =>
    exact ⟨_, _, h.toLine hrest rfl rfl fun _ _ => hwidth.symm⟩
  | deeper cs hdeferred hrest hregion hblank hwidth =>
    refine ⟨_, _, h.toLine hrest rfl rfl fun _ _ => ?_⟩
    show (s.indents.push (lineWidth cs)).current = lineWidth cs
    rw [Indentation.current, Indentation.opened_push hwidth]
    rfl
  | shallower cs closed indents hdeferred hrest hregion hblank hwidth hclose =>
    obtain ⟨-, -, -, -, hcurrent⟩ := Indentation.closeTo?_eq_some hclose
    exact ⟨_, _, h.toLine hrest rfl rfl fun _ _ => hcurrent⟩

/-- A sound scanner goes on to sound ones. -/
theorem Emits.sound {ls : List Lexeme} (h : Emits s ls s') (hs : s.Sound) : s'.Sound := by
  induction h with
  | refl s => exact hs
  | step hnext hl _ ih => exact ih (hs.step (.of_next hnext))

theorem Emits.layout_eq {ls : List Lexeme} (h : Emits s ls s') : s'.layout = s.layout := by
  induction h with
  | refl s => rfl
  | step hnext hl _ ih => exact ih.trans (Step.of_next hnext).layout_eq

/-- Nothing is scanned behind the end of a template. -/
theorem Emits.kind_ne_eos {ls : List Lexeme} (h : Emits s ls s') : ∀ l ∈ ls, l.kind ≠ .eos := by
  induction h with
  | refl s => exact nofun
  | step hnext hl _ ih =>
    intro l hmem
    rcases List.mem_cons.1 hmem with rfl | hmem
    · exact hl
    · exact ih l hmem

/-- Whatever was scanned, the scanner is at a place of the text. -/
theorem Emits.placed {ls : List Lexeme} (h : Emits s ls s') (hs : s.Sound)
    (hplaced : Placed text s above front) : ∃ above' front', Placed text s' above' front' := by
  induction h generalizing above front with
  | refl s => exact ⟨above, front, hplaced⟩
  | step hnext hl _ ih =>
    have hstep := Step.of_next hnext
    obtain ⟨above', front', hplaced'⟩ := hplaced.step hs hstep
    exact ih (hs.step hstep) hplaced'

end

end Scanner

/-- A text is cut in one way behind its last line break. -/
theorem Source.append_inj_of_break {above above' front front' : List Char}
    (heq : above ++ front = above' ++ front') (hfront : '\n' ∉ front) (hfront' : '\n' ∉ front')
    (hlast : ∀ c ∈ above.getLast?, c = '\n') (hlast' : ∀ c ∈ above'.getLast?, c = '\n') :
    above = above' ∧ front = front' := by
  -- If one part above were longer, the other line would hold the break at its end.
  have hnil : ∀ {xs ys zs : List Char}, '\n' ∉ ys → (∀ c ∈ (xs ++ zs).getLast?, c = '\n') →
      (∀ c ∈ zs, c ∈ ys) → zs = [] := by
    intro xs ys zs hys hzs hsub
    cases hlast : zs.getLast? with
    | none => exact List.getLast?_eq_none_iff.1 hlast
    | some c =>
      have hc := hzs c (by rw [List.getLast?_append, hlast]; rfl)
      exact absurd (hsub c (List.mem_of_getLast? hlast)) (by rwa [hc])
  rcases List.append_eq_append_iff.1 heq with ⟨zs, rfl, rfl⟩ | ⟨zs, rfl, rfl⟩
  · obtain rfl := hnil hfront hlast' fun c hc => List.mem_append_left _ hc
    simp
  · obtain rfl := hnil hfront' hlast fun c hc => List.mem_append_left _ hc
    simp

end Offside
