import Mathlib.Order.Monotone.Basic
import Offside.Proofs.Line.Source
import Offside.Proofs.Token.Seam

/-!
# Other widths of the same order

The widths of lines are only compared with each other. If every line that is not blank gets
another width and the order of the widths stays the same, the source is scanned in the same
way (`tokenize_reindent`). Only texts in verbatim regions show the difference, in the spaces
in front of them.

`Source.reindent` gives lines their new widths. Two scanners, one in each source, are kept
side by side by `Scanner.Reindents`, whose levels and regions correspond, and
`Reindents.next` is one step of both. The first line keeps its width, which is trimmed, and
the root keeps the width zero.
-/

set_option autoImplicit false

namespace Offside

open Offside.Character

namespace Source

/-- A line of another width. Blank lines stay as they are. -/
def reindentLine (f : Nat → Nat) (l : List Char) : List Char :=
  if l.all isSpace then l
  else List.replicate (f (Scanner.lineWidth l)) ' ' ++ l.dropWhile isSpace

/-- All lines but the first one have other widths. -/
def reindent (f : Nat → Nat) : List (List Char) → List (List Char)
  | [] => []
  | first :: others => first :: others.map (reindentLine f)

section

variable (f : Nat → Nat)

/-- A line that is not blank has some text behind its spaces. -/
theorem reindentLine_spaces {width : Nat} {body : List Char} (hne : body ≠ [])
    (hbody : body.head? ≠ some ' ') :
    reindentLine f (List.replicate width ' ' ++ body) = List.replicate (f width) ' ' ++ body := by
  obtain ⟨c, cs, rfl⟩ := List.exists_cons_of_ne_nil hne
  have hc : isSpace c = false := by simpa [isSpace] using hbody
  have hwidth : Scanner.lineWidth (List.replicate width ' ' ++ c :: cs) = width := by
    rw [Scanner.lineWidth, Scanner.takeWhile_spaces hbody, List.length_replicate]
  rw [reindentLine, if_neg (by simp [hc]), hwidth, Scanner.dropWhile_spaces hbody]

variable {l : List Char}

/-- A line that is not blank, taken apart. -/
theorem exists_spaces (hl : ¬l.all isSpace = true) :
    ∃ width body, l = List.replicate width ' ' ++ body ∧ body ≠ [] ∧ body.head? ≠ some ' ' := by
  have hspaces : l.takeWhile isSpace = List.replicate (Scanner.lineWidth l) ' ' := by
    refine List.eq_replicate_iff.2 ⟨rfl, ?_⟩
    intro c hc
    simpa [isSpace] using List.mem_takeWhile_imp hc
  refine ⟨Scanner.lineWidth l, l.dropWhile isSpace, ?_, ?_, fun hhead => ?_⟩
  · rw [← hspaces, List.takeWhile_append_dropWhile]
  · rw [ne_eq, List.dropWhile_eq_nil_iff, ← List.all_eq_true]
    exact hl
  · have hnot := List.head?_dropWhile_not isSpace l
    rw [hhead] at hnot
    exact absurd hnot (by decide)

theorem isMargin_replicate (width : Nat) : ∀ c ∈ List.replicate width ' ', isMargin c = true := by
  intro c hc
  rw [List.eq_of_mem_replicate hc]
  rfl

/-- Spaces are margin, so reindenting keeps what is marginal and what is in front. -/
theorem dropWhile_reindentLine (l : List Char) :
    (reindentLine f l).dropWhile isMargin = l.dropWhile isMargin := by
  by_cases hl : l.all isSpace = true
  · rw [reindentLine, if_pos hl]
  · obtain ⟨width, body, rfl, hne, hbody⟩ := exists_spaces hl
    rw [reindentLine_spaces f hne hbody, List.dropWhile_append_of_pos (isMargin_replicate _),
      List.dropWhile_append_of_pos (isMargin_replicate _)]

/-- So a line holds nothing but margin exactly if it did before. -/
theorem isMarginal_reindentLine (l : List Char) : isMarginal (reindentLine f l) = isMarginal l := by
  rw [← isMarginal_dropWhile, dropWhile_reindentLine, isMarginal_dropWhile]

/-- Trimming stops inside a line that holds more than margin. -/
theorem trimEnd_append_of_isMarginal (hl : isMarginal l = false)
    (front : List Char) : trimEnd isMargin (front ++ l) = front ++ trimEnd isMargin l :=
  trimEnd_append (by simpa [isMarginal] using hl) front

/-- A line that holds more than margin is not blank. -/
theorem not_all_isSpace (hl : isMarginal l = false) : l.all isSpace = false := by
  rw [← Bool.not_eq_true] at hl ⊢
  intro hblank
  refine hl (List.all_eq_true.2 fun c hc => ?_)
  have hspace : c = ' ' := by simpa [isSpace] using List.all_eq_true.1 hblank c hc
  rw [hspace]
  rfl

/-- A line can be trimmed before it is reindented. -/
theorem trimEnd_reindentLine (l : List Char) :
    trimEnd isMargin (reindentLine f l) = reindentLine f (trimEnd isMargin l) := by
  cases hl : isMarginal l with
  | true =>
    have hnil : ∀ {l : List Char}, isMarginal l = true → trimEnd isMargin l = [] := by
      intro l hl
      rw [← isMarginal_reverse, isMarginal_iff] at hl
      rw [trimEnd, hl, List.reverse_nil]
    rw [hnil hl, hnil (by rwa [isMarginal_reindentLine])]
    rfl
  | false =>
    have hblank : ¬l.all isSpace = true := by simp [not_all_isSpace hl]
    obtain ⟨width, body, rfl, hne, hbody⟩ := exists_spaces hblank
    have hbody' : isMarginal body = false := by
      rw [← hl, ← isMarginal_dropWhile, ← isMarginal_dropWhile (_ ++ body),
        List.dropWhile_append_of_pos (isMargin_replicate width)]
    -- Something is left of the body, and it starts as the body does.
    obtain ⟨rest, hrest⟩ : trimEnd isMargin body <+: body := List.rdropWhile_prefix isMargin body
    have hne' : trimEnd isMargin body ≠ [] := by
      intro hnil
      rw [← isMarginal_trimEnd, hnil] at hbody'
      exact absurd hbody' (by decide)
    have hhead : (trimEnd isMargin body).head? ≠ some ' ' := by
      rwa [← hrest, List.head?_append_of_ne_nil _ hne'] at hbody
    rw [reindentLine_spaces f hne hbody, trimEnd_append_of_isMarginal hbody',
      trimEnd_append_of_isMarginal hbody', reindentLine_spaces f hne' hhead]

section

variable (ls : List (List Char))

/-- What is left of the first line has no width, so it is as if only the others were
reindented. -/
theorem stripFront_map_reindentLine :
    stripFront (ls.map (reindentLine f)) = reindent f (stripFront ls) := by
  induction ls with
  | nil => rfl
  | cons l ls ih =>
    rw [List.map_cons]
    by_cases hl : isMarginal l = true
    · rw [stripFront_cons_of_pos (by rwa [isMarginal_reindentLine]), ih, stripFront_cons_of_pos hl]
    · rw [stripFront_cons_of_neg (by rwa [isMarginal_reindentLine]), stripFront_cons_of_neg hl,
        dropWhile_reindentLine, reindent]

/-- Blank lines in front can be dropped before. -/
theorem stripFront_reindent :
    stripFront (reindent f ls) = reindent f (stripFront ls) := by
  cases ls with
  | nil => rfl
  | cons l ls =>
    by_cases hl : isMarginal l = true
    · rw [reindent, stripFront_cons_of_pos hl, stripFront_cons_of_pos hl,
        stripFront_map_reindentLine]
    · rw [reindent, stripFront_cons_of_neg hl, stripFront_cons_of_neg hl, reindent]

/-- Blank lines at the end can be dropped before. -/
theorem stripBack_map_reindentLine :
    stripBack (ls.map (reindentLine f)) = (stripBack ls).map (reindentLine f) := by
  have hmarginal : isMarginal ∘ reindentLine f = isMarginal := funext (isMarginal_reindentLine f)
  rw [stripBack, ← List.map_reverse, List.dropWhile_map, hmarginal, stripBack]
  cases ls.reverse.dropWhile isMarginal with
  | nil => rfl
  | cons last kept => simp [trimEnd_reindentLine]

/-- The same with a first line that keeps its width. -/
theorem stripBack_reindent :
    stripBack (reindent f ls) = reindent f (stripBack ls) := by
  cases ls with
  | nil => rfl
  | cons l ls =>
    show stripBack ([l] ++ ls.map (reindentLine f)) = reindent f (stripBack ([l] ++ ls))
    by_cases hls : ∀ l ∈ ls, isMarginal l = true
    · -- At most the first line is left, and it stays as it is.
      have hls' : ∀ l ∈ ls.map (reindentLine f), isMarginal l = true := by
        simpa [isMarginal_reindentLine] using hls
      rw [stripBack_append_of_all hls, stripBack_append_of_all hls']
      cases hl : isMarginal l <;> simp [stripBack, hl, reindent]
    · simp only [not_forall, Bool.not_eq_true, exists_prop] at hls
      have hls' : ∃ l ∈ ls.map (reindentLine f), isMarginal l = false := by
        simpa [isMarginal_reindentLine] using hls
      rw [stripBack_append_of_any hls, stripBack_append_of_any hls', stripBack_map_reindentLine]
      rfl

/-- So the source can be trimmed before it is reindented. -/
theorem strip_reindent : strip (reindent f ls) = reindent f (strip ls) := by
  rw [strip, stripFront_reindent, stripBack_reindent, strip]

end

end

/-- The rest of a line and the lines below it, which have other widths in the second text. -/
inductive Respaces (f : Nat → Nat) : List Char → List Char → Prop
  | mk (rest : List Char) (ls : List (List Char)) (hrest : '\n' ∉ rest) (hls : ∀ l ∈ ls, '\n' ∉ l)
      (hlast : ∀ l ∈ ls.getLast?, l.all isSpace = false) :
    Respaces f (rest ++ below ls) (rest ++ below (ls.map (reindentLine f)))

end Source

/-! ### Related states -/

/-- Levels of other widths are closed in the same way. -/
theorem Indentation.closeTo?_map {f : Nat → Nat} (hf : StrictMono f) (hzero : f 0 = 0)
    (opened : List Nat) (width : Nat) :
    closeTo? ⟨opened.map f⟩ (f width) =
      (closeTo? ⟨opened⟩ width).map fun (n, j) => (n, ⟨j.opened.map f⟩) := by
  have hne : (fun w => decide (w ≠ f width)) ∘ f = fun w => decide (w ≠ width) := by
    funext w
    simp [hf.injective.eq_iff]
  have hroot : f width = 0 ↔ width = 0 := by
    conv_lhs => rw [← hzero]
    exact hf.injective.eq_iff
  unfold closeTo?
  simp only [List.dropWhile_map, hne, hroot, ne_eq, List.map_eq_nil_iff, List.length_map]
  split <;> rfl

/-- A token of a source with other widths: the same token or, in a verbatim region, a text
with another padding. -/
inductive Token.Repads (f : Nat → Nat) (layout : Layout) : Bool → Token → Token → Prop
  | same (verbatim : Bool) (token : Token) : Repads f layout verbatim token token
  | padded (base width : Nat) (body : List Char) (h : base < width) :
    Repads f layout true
      (.text (String.ofList
        (List.replicate (width - (base + layout.tabWidth)) ' ' ++ body)))
      (.text (String.ofList
        (List.replicate (f width - (f base + layout.tabWidth)) ' ' ++ body)))

/-- Padding opens no region. -/
theorem Token.Repads.opensVerbatim {f : Nat → Nat} {layout : Layout} {verbatim : Bool}
    {token token' : Token} (h : token.Repads f layout verbatim token') :
    token'.opensVerbatim = token.opensVerbatim := by
  cases h <;> rfl

theorem Token.Repads.kind {f : Nat → Nat} {layout : Layout} {verbatim : Bool}
    {token token' : Token} (h : token.Repads f layout verbatim token') :
    token'.kind = token.kind := by
  cases h <;> rfl

/-- A verbatim region of a source with other widths, on its first line or on one below. -/
inductive Region.Rebases (f : Nat → Nat) (layout : Layout) : Region → Region → Prop
  | opening (base : Nat) : Rebases f layout { base } { base := f base }
  | line (base width : Nat) (h : base < width) :
    Rebases f layout ⟨base, width - (base + layout.tabWidth), false⟩
      ⟨f base, f width - (f base + layout.tabWidth), false⟩

/-- The base of a region has the other width. -/
theorem Region.Rebases.base_eq {f : Nat → Nat} {layout : Layout} {region region' : Region}
    (h : region.Rebases f layout region') : region'.base = f region.base := by
  cases h <;> rfl

namespace Scanner

/-- Scanners at the same point of a source and of one with other widths. -/
structure Reindents (f : Nat → Nat) (layout : Layout) (s t : Scanner) : Prop where
  layouts : s.layout = layout ∧ t.layout = layout
  rest : Source.Respaces f s.rest t.rest
  line : t.line = s.line
  indents : t.indents = ⟨s.indents.opened.map f⟩
  region : Option.Rel (Region.Rebases f layout) s.region t.region
  last : t.last = s.last
  deferred : t.deferred = s.deferred

/-- Two steps fail in the same way, or they hand out tokens that are the same up to their
padding, on the same line. -/
inductive Mirrors (f : Nat → Nat) (layout : Layout) (verbatim : Bool) :
    Except ScanError Lexeme × Scanner → Except ScanError Lexeme × Scanner → Prop
  | error (e : ScanError) (s t : Scanner) : Mirrors f layout verbatim (.error e, s) (.error e, t)
  | ok {l l' : Lexeme} {s t : Scanner} (hline : l'.line = l.line)
      (htoken : l.token.Repads f layout verbatim l'.token) (h : Reindents f layout s t) :
    Mirrors f layout verbatim (.ok l, s) (.ok l', t)

section Steps

variable {f : Nat → Nat} {layout : Layout} {verbatim : Bool} {s t : Scanner} {l l' : Lexeme}
  (h : Reindents f layout s t)

include h

/-- Both scanners are in a region or none is. -/
theorem Reindents.region_cases :
    (s.region = none ∧ t.region = none) ∨ ∃ region region', s.region = some region ∧
      t.region = some region' ∧ region.Rebases f layout region' := by
  have hregion := h.region
  revert hregion
  generalize s.region = region, t.region = region'
  intro hregion
  cases hregion with
  | none => exact .inl ⟨rfl, rfl⟩
  | some hregion => exact .inr ⟨_, _, rfl, rfl, hregion⟩

variable (hzero : f 0 = 0)

include hzero

/-- The innermost levels have corresponding widths. -/
theorem Reindents.current : t.indents.current = f s.indents.current := by
  rw [h.indents]
  unfold Indentation.current
  cases s.indents.opened with
  | nil => exact hzero.symm
  | cons width opened => rfl

/-- Handing out lexemes that correspond keeps the scanners side by side. -/
theorem Reindents.emit (hline : l'.line = l.line)
    (htoken : l.token.Repads f layout verbatim l'.token) :
    Mirrors f layout verbatim (s.emit l) (t.emit l') := by
  refine .ok hline htoken ⟨h.layouts, h.rest, h.line, h.indents, ?_, ?_, h.deferred⟩
  · dsimp only
    rw [htoken.opensVerbatim, h.current hzero]
    split
    · exact .some (.opening _)
    · exact h.region
  · exact congrArg some htoken.kind

theorem Reindents.yield (token : Token) :
    Mirrors f layout verbatim (s.yield token) (t.yield token) :=
  h.emit hzero h.line (.same _ _)

/-- A line opens or closes the same levels in both sources, as their widths are in the same
order. -/
theorem Reindents.indentTo (hf : StrictMono f) (width : Nat) :
    Mirrors f layout verbatim (s.indentTo width) (t.indentTo (f width)) := by
  unfold Scanner.indentTo
  rw [h.current hzero]
  simp only [hf.injective.eq_iff, hf.lt_iff_lt]
  split
  · exact h.yield hzero _
  split
  · next hwidth =>
    have hwidth' : t.indents.current < f width := by rwa [h.current hzero, hf.lt_iff_lt]
    have hpush : t.indents.push (f width) = ⟨(s.indents.push width).opened.map f⟩ := by
      rw [Indentation.push, if_pos hwidth', Indentation.push, if_pos hwidth, h.indents]
      rfl
    refine Reindents.yield ?_ hzero _
    exact ⟨h.layouts, h.rest, h.line, hpush, h.region, h.last, h.deferred⟩
  rw [h.indents, Indentation.closeTo?_map hf hzero]
  cases s.indents.closeTo? width with
  | none =>
    rw [Option.map_none, h.line]
    exact .error _ _ _
  | some out =>
    obtain ⟨closed, indents⟩ := out
    refine Reindents.yield ?_ hzero _
    refine ⟨h.layouts, h.rest, h.line, rfl, h.region, h.last, ?_⟩
    dsimp only
    rw [h.deferred, h.line]

/-- At the end both scanners close a level, or none is left. -/
theorem Reindents.finish : Mirrors f layout verbatim s.finish t.finish := by
  unfold Scanner.finish Indentation.pop?
  rw [h.indents]
  cases s.indents.opened with
  | nil => exact h.yield hzero _
  | cons width opened =>
    refine Reindents.yield ?_ hzero _
    exact ⟨h.layouts, h.rest, h.line, rfl, h.region, h.last, h.deferred⟩

omit hzero

/-! ### Reading inside a line -/

omit h in
/-- The text of a line of a region is its padding and what does not depend on the widths. -/
theorem text_of_not_opening (base padding : Nat) (cs : List Char) :
    Region.text ⟨base, padding, false⟩ cs =
      List.replicate padding ' ' ++ Region.text ⟨0, 0, false⟩ cs := by
  simp [Region.text]

/-- On the same line both scanners read the same, up to the padding of a text. -/
theorem Reindents.readInline (cs : List Char) :
    Option.Rel (fun a b => a.1.Repads f layout s.region.isSome b.1 ∧ b.2 = a.2)
      (Reader.outcome s.readInline cs) (Reader.outcome t.readInline cs) := by
  have hrefl : ∀ out : Option (Token × List Char),
      Option.Rel (fun a b => a.1.Repads f layout s.region.isSome b.1 ∧ b.2 = a.2) out out := by
    intro out
    cases out with
    | none => exact .none
    | some out => exact .some ⟨.same _ _, rfl⟩
  have hregion := h.region
  unfold Reader.outcome Scanner.readInline Scanner.readVerbatim
  rw [h.last]
  revert hregion hrefl
  generalize s.region = region, t.region = region'
  intro hrefl hregion
  cases hregion with
  | none => exact hrefl _
  | some hregion =>
    cases hregion with
    | opening base => exact hrefl _
    | line base width hwidth =>
      -- A line below the first one is always text, unless it is empty.
      dsimp only
      rw [Bool.false_and, Bool.false_and, if_neg Bool.false_ne_true, if_neg Bool.false_ne_true]
      cases Token.readLine cs with
      | none => exact hrefl _
      | some out =>
        refine .some ⟨?_, rfl⟩
        dsimp only
        rw [text_of_not_opening, text_of_not_opening (f base)]
        exact .padded base width _ hwidth

/-! ### Steps side by side -/

variable (hzero : f 0 = 0) (hdeferred : s.deferred = [])

include hzero hdeferred

/-- Both scanners go on to the next line in the same way. -/
theorem Reindents.next_break (hf : StrictMono f) {width width' : Nat} {cs cs' : List Char}
    (hs : s.rest = '\n' :: (List.replicate width ' ' ++ cs))
    (ht : t.rest = '\n' :: (List.replicate width' ' ' ++ cs'))
    (hcs : cs.head? ≠ some ' ') (hhead : cs'.head? = cs.head?)
    (hrest : Source.Respaces f cs cs') (hwidth : cs.head? ≠ some '\n' → width' = f width) :
    Mirrors f layout verbatim s.next t.next := by
  have hline : t.line + 1 = s.line + 1 := by rw [h.line]
  have hdeferred' := h.deferred.trans hdeferred
  have hcs' : cs'.head? ≠ some ' ' := by rwa [hhead]
  have hgo : Reindents f layout { s with rest := cs, line := s.line + 1 }
      { t with rest := cs', line := t.line + 1 } :=
    ⟨h.layouts, hrest, hline, h.indents, h.region, h.last, h.deferred⟩
  rcases h.region_cases with ⟨hnone, hnone'⟩ | ⟨region, region', hsome, hsome', hregion⟩
  · rw [next_of_break hdeferred hnone hs hcs, next_of_break hdeferred' hnone' ht hcs', hhead]
    split
    · exact Reindents.yield hgo hzero _
    · next hblank =>
      rw [hwidth (by simpa using hblank)]
      exact Reindents.indentTo hgo hzero hf _
  · rw [next_of_verbatim_break hdeferred hsome hs hcs,
      next_of_verbatim_break hdeferred' hsome' ht hcs', hhead]
    split
    · exact Reindents.yield hgo hzero _
    · next hblank =>
      rw [hwidth (by simpa using hblank), hregion.base_eq]
      simp only [hf.lt_iff_lt]
      split
      · next hdeeper =>
        refine Reindents.yield ?_ hzero _
        refine ⟨h.layouts, hrest, hline, h.indents, .some ?_, h.last, h.deferred⟩
        rw [h.layouts.1, h.layouts.2]
        exact .line _ _ hdeeper
      · refine Reindents.indentTo ?_ hzero hf _
        exact ⟨h.layouts, hrest, hline, h.indents, .none, h.last, h.deferred⟩

/-- Inside a line both read the same characters. -/
theorem Reindents.next_inline {c : Char} {cs : List Char} {ls : List (List Char)}
    (hs : s.rest = c :: cs ++ Source.below ls)
    (ht : t.rest = c :: cs ++ Source.below (ls.map (Source.reindentLine f)))
    (hcs : '\n' ∉ c :: cs) (hls : ∀ l ∈ ls, '\n' ∉ l)
    (hlast : ∀ l ∈ ls.getLast?, l.all isSpace = false) :
    Mirrors f layout s.region.isSome s.next t.next := by
  have hc : c ≠ '\n' := fun heq => hcs (heq ▸ .head _)
  have hread := h.readInline (c :: cs)
  have hbelow : ∀ (s : Scanner) (ls : List (List Char)),
      Reader.outcome s.readInline (c :: cs ++ Source.below ls) =
        (Reader.outcome s.readInline (c :: cs)).map fun (token, rest) =>
          (token, rest ++ Source.below ls) := by
    intro s ls
    cases ls with
    | nil => rw [Source.below_nil, List.append_nil]; simp
    | cons l ls => exact s.local_readInline.append (c :: cs) _
  have hsuffix : ∀ token rest, Reader.outcome s.readInline (c :: cs) = some (token, rest) →
      rest <:+ c :: cs :=
    fun _ _ hout => s.local_readInline.suffix hout
  rw [next_of_inline hdeferred hs hc, next_of_inline (h.deferred.trans hdeferred) ht hc, hs, ht,
    hbelow, hbelow]
  revert hread hsuffix
  generalize Reader.outcome s.readInline (c :: cs) = out,
    Reader.outcome t.readInline (c :: cs) = out'
  intro hread hsuffix
  cases hread with
  | none =>
    dsimp only [Option.map_none]
    rw [h.line]
    exact .error _ _ _
  | @some a b hread =>
    obtain ⟨token, rest⟩ := a
    obtain ⟨token', rest'⟩ := b
    obtain ⟨htoken, rfl⟩ := hread
    have hrest : '\n' ∉ rest' := fun hmem => hcs ((hsuffix token rest' rfl).subset hmem)
    refine Reindents.emit ?_ hzero h.line htoken
    exact ⟨h.layouts, .mk rest' ls hrest hls hlast, h.line, h.indents, h.region, h.last,
      h.deferred⟩

/-- Both scanners are in front of the same line, which has another width for the second. -/
theorem Reindents.next_below (hf : StrictMono f) {l : List Char} {ls : List (List Char)}
    (hs : s.rest = Source.below (l :: ls))
    (ht : t.rest = Source.below ((l :: ls).map (Source.reindentLine f)))
    (hls : ∀ l' ∈ l :: ls, '\n' ∉ l') (hlast : ∀ l' ∈ (l :: ls).getLast?, l'.all isSpace = false) :
    Mirrors f layout verbatim s.next t.next := by
  have hlast' := Source.getLast?_tail hlast
  have hls' : ∀ l' ∈ ls, '\n' ∉ l' := fun l' hl' => hls l' (.tail _ hl')
  rw [Source.below_cons] at hs
  rw [List.map_cons, Source.below_cons] at ht
  by_cases hblank : l.all isSpace = true
  · have hspaces : l = List.replicate l.length ' ' := by
      refine List.eq_replicate_iff.2 ⟨rfl, ?_⟩
      intro c hc
      simpa [isSpace] using List.all_eq_true.1 hblank c hc
    rw [Source.reindentLine, if_pos hblank] at ht
    rw [hspaces] at hs ht
    -- A blank line is not the last one, so a line break follows in both texts.
    cases ls with
    | nil => simp [hlast l rfl] at hblank
    | cons l' ls =>
      refine h.next_break hzero hdeferred hf hs ht (by simp) rfl ?_ fun hne => absurd rfl hne
      exact .mk [] (l' :: ls) List.not_mem_nil hls' hlast'
  · obtain ⟨width, body, rfl, hne, hbody⟩ := Source.exists_spaces hblank
    have hbreak : '\n' ∉ body := fun hmem => hls _ (.head _) (List.mem_append_right _ hmem)
    have hhead : ∀ cs, (body ++ cs).head? = body.head? :=
      fun cs => List.head?_append_of_ne_nil _ hne
    rw [List.append_assoc] at hs
    rw [Source.reindentLine_spaces f hne hbody, List.append_assoc] at ht
    refine h.next_break hzero hdeferred hf hs ht ?_ ?_ (.mk body ls hbreak hls' hlast') fun _ => rfl
    · rwa [hhead]
    · rw [hhead, hhead]

omit hdeferred

/-- In every step the two scanners do the same. -/
theorem Reindents.next (hf : StrictMono f) : Mirrors f layout s.region.isSome s.next t.next := by
  cases hdeferred : s.deferred with
  | cons l ls =>
    have ht : t.deferred = l :: ls := h.deferred.trans hdeferred
    have hnext : s.next = { s with deferred := ls }.emit l := by simp [Scanner.next, hdeferred]
    have hnext' : t.next = { t with deferred := ls }.emit l := by simp [Scanner.next, ht]
    rw [hnext, hnext']
    refine Reindents.emit ?_ hzero rfl (.same _ _)
    exact ⟨h.layouts, h.rest, h.line, h.indents, h.region, h.last, rfl⟩
  | nil =>
    have hdeferred' : t.deferred = [] := h.deferred.trans hdeferred
    have hrest := h.rest
    generalize hs : s.rest = rest, ht : t.rest = rest' at hrest
    obtain ⟨rest, ls, hrest, hls, hlast⟩ := hrest
    -- The two are inside a line, in front of another one, or at the end.
    cases rest with
    | cons c cs => exact h.next_inline hzero hdeferred hs ht hrest hls hlast
    | nil =>
      cases ls with
      | cons l ls => exact h.next_below hzero hdeferred hf hs ht hls hlast
      | nil =>
        have hnext : s.next = s.finish := by simp [Scanner.next, hdeferred, hs]
        have hnext' : t.next = t.finish := by simp [Scanner.next, hdeferred', ht]
        rw [hnext, hnext']
        exact h.finish hzero

end Steps

end Scanner

/-! ### Whole templates -/

/-- A lexeme of a source with other widths, as it is scanned. -/
structure Scan.Corresponds (f : Nat → Nat) (layout : Layout) (a b : Scan) : Prop where
  line : b.lexeme.line = a.lexeme.line
  verbatim : b.verbatim = a.verbatim
  token : a.lexeme.token.Repads f layout a.verbatim b.lexeme.token

theorem Scanner.Reindents.isSome_region {f : Nat → Nat} {layout : Layout} {s t : Scanner}
    (h : Reindents f layout s t) : t.region.isSome = s.region.isSome := by
  rcases h.region_cases with ⟨hs, ht⟩ | ⟨region, region', hs, ht, -⟩
  · rw [hs, ht]
  · rw [hs, ht]
    rfl

/-- Where the first scanner hands out a lexeme, the second one does. -/
theorem Scanner.Reindents.next_ok {f : Nat → Nat} {layout : Layout} {s s' t : Scanner}
    {l : Lexeme} (h : Reindents f layout s t) (hf : StrictMono f) (hzero : f 0 = 0)
    (hnext : s.next = (.ok l, s')) :
    ∃ l' t', t.next = (.ok l', t') ∧ l'.line = l.line ∧
      l.token.Repads f layout s.region.isSome l'.token ∧ Reindents f layout s' t' := by
  have hmirrors := h.next hzero hf
  rw [hnext] at hmirrors
  generalize t.next = out at hmirrors ⊢
  cases hmirrors with
  | ok hline htoken h' => exact ⟨_, _, rfl, hline, htoken, h'⟩

/-- The tapes of the two scanners go along with each other. -/
theorem Scanner.Reindents.tape {f : Nat → Nat} {layout : Layout} {s t : Scanner}
    (h : Reindents f layout s t) (hf : StrictMono f) (hzero : f 0 = 0) :
    t.tape.failure = s.tape.failure ∧
      List.Forall₂ (Scan.Corresponds f layout) s.tape.scans t.tape.scans := by
  induction s using tape_induction generalizing t with
  | error s e s' hnext =>
    have hmirrors := h.next hzero hf
    rw [hnext] at hmirrors
    generalize hnext' : t.next = out at hmirrors
    cases hmirrors with
    | error =>
      rw [tape_of_error hnext, tape_of_error hnext']
      exact ⟨rfl, .nil⟩
  | eos s l s' hnext hl =>
    obtain ⟨l', t', hnext', hline, htoken, -⟩ := h.next_ok hf hzero hnext
    rw [tape_of_eos hnext hl, tape_of_eos hnext' (htoken.kind.trans hl)]
    exact ⟨rfl, .cons ⟨hline, h.isSome_region, htoken⟩ .nil⟩
  | step s l s' hnext hl ih =>
    obtain ⟨l', t', hnext', hline, htoken, h'⟩ := h.next_ok hf hzero hnext
    obtain ⟨hfailure, hscans⟩ := ih h'
    rw [tape_of_ok hnext hl, tape_of_ok hnext' (htoken.kind.trans_ne hl)]
    exact ⟨hfailure, .cons ⟨hline, h.isSome_region, htoken⟩ hscans⟩

/-- Reindenting brings no tabs with it. -/
theorem Source.not_mem_reindent {f : Nat → Nat} {ls : List (List Char)}
    (h : ∀ l ∈ ls, '\t' ∉ l) : ∀ l ∈ reindent f ls, '\t' ∉ l := by
  have hline : ∀ l : List Char, '\t' ∉ l → '\t' ∉ reindentLine f l := by
    intro l hl
    unfold reindentLine
    split
    · exact hl
    · rw [List.mem_append, not_or]
      exact ⟨by simp, fun hmem => hl ((List.dropWhile_sublist _).subset hmem)⟩
  cases ls with
  | nil => exact h
  | cons first others =>
    intro l hl
    rcases List.mem_cons.1 hl with rfl | hl
    · exact h l (.head _)
    · obtain ⟨l', hl', rfl⟩ := List.mem_map.1 hl
      exact hline l' (h l' (.tail _ hl'))

/-- Without tabs, a source is only trimmed. -/
theorem Source.normalize_of_no_tabs (layout : Layout) {source : String}
    (h : ∀ l ∈ lines source, '\t' ∉ l) :
    normalize layout source = unlines (strip (lines source)) := by
  have htabs : (lines source).map (expandTabs layout) = lines source := by
    conv_rhs => rw [← List.map_id (lines source)]
    exact List.map_congr_left fun l hl => Outline.expandTabs_of_not_mem layout (h l hl)
  rw [normalize_eq, htabs]

/-- The scanners of the two sources start side by side. -/
theorem Scanner.reindents_ofSource (layout : Layout) {f : Nat → Nat} {source source' : String}
    (htabs : '\t' ∉ source.toList)
    (hlines : Source.lines source' = Source.reindent f (Source.lines source)) :
    Reindents f layout (ofSource layout source) (ofSource layout source') := by
  refine ⟨⟨rfl, rfl⟩, ?_, rfl, rfl, .none, rfl, rfl⟩
  have htabs' : ∀ l ∈ Source.lines source, '\t' ∉ l :=
    fun l hl hmem => htabs (Source.mem_of_mem_line hl hmem)
  have hlast : ∀ l ∈ (Source.strip (Source.lines source)).getLast?, l.all isSpace = false := by
    intro l hl
    exact Source.not_all_isSpace (Source.isMarginal_getLast_strip hl)
  have hmem : ∀ l ∈ Source.strip (Source.lines source), '\n' ∉ l := by
    intro l hl hmem
    obtain ⟨l', hl', hmem'⟩ := Source.mem_of_mem_strip hl hmem
    exact Source.not_mem_line hl' hmem'
  unfold ofSource
  dsimp only
  rw [Source.normalize_of_no_tabs layout htabs', Source.normalize_of_no_tabs layout
    (by rw [hlines]; exact Source.not_mem_reindent htabs'), hlines, Source.strip_reindent]
  cases hls : Source.strip (Source.lines source) with
  | nil => exact .mk [] [] List.not_mem_nil (by simp) (by simp)
  | cons first others =>
    rw [hls] at hmem hlast
    rw [Source.reindent, Source.unlines_cons, Source.unlines_cons]
    exact .mk first others (hmem first (.head _)) (fun l hl => hmem l (.tail _ hl))
      (Source.getLast?_tail hlast)

/-- If all lines but the first have other widths, in the same order, and those of width zero
keep it, scanning fails in the same way, or it gives the same lexemes on the same lines, up to
the padding of the texts in verbatim regions. -/
theorem tokenize_reindent (layout : Layout) {f : Nat → Nat} {source source' : String}
    (hf : StrictMono f) (hzero : f 0 = 0) (htabs : '\t' ∉ source.toList)
    (hlines : Source.lines source' = Source.reindent f (Source.lines source)) :
    (∀ e, tokenize layout source = .error e → tokenize layout source' = .error e) ∧
      ∀ ls, tokenize layout source = .ok ls →
        ls = (Scanner.ofSource layout source).tape.lexemes ∧
          tokenize layout source' = .ok (Scanner.ofSource layout source').tape.lexemes ∧
          List.Forall₂ (Scan.Corresponds f layout) (Scanner.ofSource layout source).tape.scans
            (Scanner.ofSource layout source').tape.scans := by
  obtain ⟨hfailure, hscans⟩ := (Scanner.reindents_ofSource layout htabs hlines).tape hf hzero
  rw [tokenize_eq_tape, tokenize_eq_tape]
  refine ⟨?_, ?_⟩
  · intro e he
    rw [Tape.result_eq_error_iff] at he ⊢
    rw [hfailure, he]
  · intro ls hls
    rw [Tape.result_eq_ok_iff] at hls
    rw [Tape.result_eq_ok_iff, hfailure]
    exact ⟨hls.2.symm, ⟨hls.1, rfl⟩, hscans⟩

/-- Three times as wide: a region with a blank line, and a width that is not open. -/
theorem tokenize_reindent_threefold :
    tokenize {} "ul\n      |\n\n                     two\n      li" =
        .ok (Scanner.ofSource {} "ul\n      |\n\n                     two\n      li").tape.lexemes ∧
      List.Forall₂ (Scan.Corresponds (3 * ·) {})
        (Scanner.ofSource {} "ul\n  |\n\n       two\n  li").tape.scans
        (Scanner.ofSource {} "ul\n      |\n\n                     two\n      li").tape.scans ∧
      tokenize {} "ul\n         li\n   b" = .error (.malformedIndentation 3) := by
  have hf : StrictMono (3 * · : Nat → Nat) := by
    intro v w h
    dsimp only
    omega
  have hregion : tokenize {} "ul\n  |\n\n       two\n  li" =
      .ok [⟨.tag "ul", 1⟩, ⟨.indent, 2⟩, ⟨.pipe, 2⟩, ⟨.indent, 3⟩, ⟨.indent, 4⟩,
        ⟨.text "   two", 4⟩, ⟨.newline, 5⟩, ⟨.tag "li", 5⟩, ⟨.outdent, 5⟩, ⟨.eos, 5⟩] := by
    decide +kernel
  have hmalformed : tokenize {} "ul\n   li\n b" = .error (.malformedIndentation 3) := by
    decide +kernel
  have hlines : Source.lines "ul\n      |\n\n                     two\n      li" =
      Source.reindent (3 * ·) (Source.lines "ul\n  |\n\n       two\n  li") := by
    decide +kernel
  obtain ⟨-, hlexemes, hscans⟩ :=
    (tokenize_reindent {} hf rfl (by decide +kernel) hlines).2 _ hregion
  exact ⟨hlexemes, hscans,
    (tokenize_reindent {} hf rfl (by decide +kernel) (by decide +kernel)).1 _ hmalformed⟩

end Offside
