import Mathlib.Data.List.DropRight
import Mathlib.Data.List.TakeWhile
import Offside.Proofs.General
import Offside.Proofs.Outline.Source

/-!
# The lines of a source

`Source.lines` cuts a source at its line breaks, whatever characters they are made of, and
`unlines` puts lines together again. The form in which a source is scanned can be said line
by line (`normalize_eq`): tabs are expanded in each line, lines that hold nothing but margin
are dropped at both ends (`strip`), and the first and the last line that are left are
trimmed on their outer sides.

A scanner at a line break passes a blank line or goes on to a line of some width, inside
and outside of a verbatim region (`next_blank` to `next_verbatimLine`).
-/

set_option autoImplicit false

namespace Offside

open Offside.Character

namespace Character

variable {p : Char → Bool}

/-- Trimming stops at a character that stays. -/
theorem trimEnd_append_cons {c : Char} (hc : p c = false) (xs ys : List Char) :
    trimEnd p (xs ++ c :: ys) = xs ++ c :: trimEnd p ys := by
  have hreverse : (xs ++ c :: ys).reverse = ys.reverse ++ c :: xs.reverse := by simp
  rw [trimEnd, hreverse, dropWhile_append_cons hc, trimEnd]
  simp

/-- Trimming stops inside a part that holds a character that stays. -/
theorem trimEnd_append {l : List Char} (hl : ∃ c ∈ l, p c = false) (front : List Char) :
    trimEnd p (front ++ l) = front ++ trimEnd p l := by
  obtain ⟨c, hmem, hc⟩ := hl
  obtain ⟨xs, ys, rfl⟩ := List.append_of_mem hmem
  rw [← List.append_assoc, trimEnd_append_cons hc, trimEnd_append_cons hc, List.append_assoc]

end Character

namespace Source

/-- The lines of a source. -/
def lines (source : String) : List (List Char) :=
  (unifyBreaks source.toList).splitOn '\n'

/-- Lines with line breaks between them. -/
def unlines (ls : List (List Char)) : List Char :=
  ['\n'].intercalate ls

/-- A line that starts with spaces: it is blank, or it says something behind them. -/
inductive Row where
  | blank (width : Nat)
  | line (width : Nat) (body : String)
deriving DecidableEq, Repr

/-- The characters of a line. -/
def Row.chars : Row → List Char
  | blank width => List.replicate width ' '
  | line width body => List.replicate width ' ' ++ body.toList

/-- Whether a line is blank. -/
def Row.isBlank : Row → Bool
  | blank _ => true
  | line _ _ => false

/-- Lines that follow a line. -/
def below (ls : List (List Char)) : List Char :=
  ls.flatMap ('\n' :: ·)

@[simp] theorem below_nil : below [] = [] := rfl

@[simp] theorem below_cons (l : List Char) (ls : List (List Char)) :
    below (l :: ls) = '\n' :: (l ++ below ls) := rfl

/-- Lines below a line start with the break that ends it. -/
theorem endsLine_below_append (ls : List (List Char)) {rest : List Char}
    (hrest : Outline.EndsLine rest) : Outline.EndsLine (below ls ++ rest) := by
  cases ls with
  | nil => exact hrest
  | cons l ls => simp [Outline.EndsLine]

theorem endsLine_below (ls : List (List Char)) : Outline.EndsLine (below ls) := by
  rw [← List.append_nil (below ls)]
  exact endsLine_below_append ls (by rintro c ⟨⟩)

/-- What holds of the last of some lines holds of it where the first one is left out. -/
theorem getLast?_tail {α : Type} {p : α → Prop} {l : α} {ls : List α}
    (hlast : ∀ l' ∈ (l :: ls).getLast?, p l') : ∀ l' ∈ ls.getLast?, p l' := by
  intro l' hl'
  refine hlast l' ?_
  rw [List.getLast?_cons, Option.mem_def.1 hl']
  rfl

/-- A line has the others below it. -/
theorem unlines_cons (l : List Char) (ls : List (List Char)) :
    unlines (l :: ls) = l ++ below ls := by
  induction ls generalizing l with
  | nil => simp [unlines]
  | cons l' ls ih =>
    have hcons : unlines (l :: l' :: ls) = l ++ ['\n'] ++ unlines (l' :: ls) :=
      List.intercalate_cons_cons
    rw [hcons, ih, below_cons, List.append_assoc, List.singleton_append]

/-- More lines go below those there are. -/
theorem unlines_append {ls : List (List Char)} (hls : ls ≠ []) (ls' : List (List Char)) :
    unlines (ls ++ ls') = unlines ls ++ below ls' := by
  obtain ⟨l, ls, rfl⟩ := List.exists_cons_of_ne_nil hls
  rw [List.cons_append, unlines_cons, unlines_cons, below, List.flatMap_append, List.append_assoc]
  rfl

/-- A source is put together from its lines, with breaks of one kind. -/
theorem unlines_lines (source : String) : unlines (lines source) = unifyBreaks source.toList :=
  List.intercalate_splitOn '\n'

/-- Tabs are expanded line by line. -/
theorem expandTabs_unlines (layout : Layout) (ls : List (List Char)) :
    expandTabs layout (unlines ls) = unlines (ls.map (expandTabs layout)) := by
  have hbelow : ∀ ls : List (List Char),
      expandTabs layout (below ls) = below (ls.map (expandTabs layout)) := by
    intro ls
    induction ls with
    | nil => rfl
    | cons l ls ih =>
      show '\n' :: expandTabs layout (l ++ below ls) = _
      rw [Outline.expandTabs_append, ih, List.map_cons, below_cons]
  cases ls with
  | nil => rfl
  | cons l ls => rw [unlines_cons, Outline.expandTabs_append, hbelow, List.map_cons, unlines_cons]

/-! ### The characters of lines -/

variable {l : List Char} {c : Char}

/-- A line holds no line break. -/
theorem not_mem_line {source : String} (hl : l ∈ lines source) : '\n' ∉ l :=
  not_mem_of_mem_splitOn hl

/-- Line breaks of one kind bring no other characters. -/
theorem mem_unifyBreaks {cs : List Char} (h : c ∈ unifyBreaks cs) : c = '\n' ∨ c ∈ cs := by
  fun_induction unifyBreaks cs with
  | case1 => cases h
  | case2 cs ih =>
    rcases List.mem_cons.1 h with rfl | h
    · exact .inl rfl
    · exact (ih h).imp_right fun h => .tail _ (.tail _ h)
  | case3 cs _ ih =>
    rcases List.mem_cons.1 h with rfl | h
    · exact .inl rfl
    · exact (ih h).imp_right (.tail _)
  | case4 d cs _ _ ih =>
    rcases List.mem_cons.1 h with rfl | h
    · exact .inr (.head _)
    · exact (ih h).imp_right (.tail _)

/-- Every character of a line is in the text. -/
theorem mem_unlines {ls : List (List Char)} (hl : l ∈ ls) (hc : c ∈ l) : c ∈ unlines ls := by
  obtain ⟨front, back, rfl⟩ := List.append_of_mem hl
  cases front with
  | nil =>
    rw [List.nil_append, unlines_cons]
    exact List.mem_append_left _ hc
  | cons l' front =>
    rw [unlines_append (List.cons_ne_nil _ _), below_cons]
    exact List.mem_append_right _ (.tail _ (List.mem_append_left _ hc))

/-- Every character of a line is in the source. -/
theorem mem_of_mem_line {source : String} (hl : l ∈ lines source)
    (hc : c ∈ l) : c ∈ source.toList := by
  have hmem := mem_unlines hl hc
  rw [unlines_lines] at hmem
  rcases mem_unifyBreaks hmem with rfl | hmem
  · exact absurd hc (not_mem_line hl)
  · exact hmem

/-! ### Trimming -/

/-- Backwards, the lines come in the opposite order, each of them backwards. -/
theorem reverse_unlines (ls : List (List Char)) :
    (unlines ls).reverse = unlines (ls.reverse.map List.reverse) := by
  induction ls with
  | nil => rfl
  | cons l ls ih =>
    cases ls with
    | nil => simp [unlines]
    | cons l' ls =>
      have hne : (l' :: ls).reverse.map List.reverse ≠ [] := by simp
      rw [List.reverse_cons, List.map_append, unlines_append hne, ← ih, unlines_cons,
        unlines_cons]
      simp

/-- Whether a line holds nothing but margin. -/
def isMarginal (l : List Char) : Bool :=
  l.all isMargin

/-- Lines without the ones in front that hold nothing but margin, and without the margin in
front of the first line that is left. -/
def stripFront (ls : List (List Char)) : List (List Char) :=
  (ls.dropWhile isMarginal).modifyHead (·.dropWhile isMargin)

/-- Lines without the ones at the end that hold nothing but margin, and without the margin
at the end of the last line that is left. -/
def stripBack (ls : List (List Char)) : List (List Char) :=
  ((ls.reverse.dropWhile isMarginal).modifyHead (trimEnd isMargin)).reverse

/-- Lines without the margin at their ends. -/
def strip (ls : List (List Char)) : List (List Char) :=
  stripBack (stripFront ls)

theorem isMarginal_iff : isMarginal l = true ↔ l.dropWhile isMargin = [] := by
  rw [isMarginal, List.all_eq_true, List.dropWhile_eq_nil_iff]

theorem isMarginal_reverse (l : List Char) : isMarginal l.reverse = isMarginal l :=
  List.all_reverse

/-- Whether a line is margin can be seen without the margin in front. -/
theorem isMarginal_dropWhile (l : List Char) :
    isMarginal (l.dropWhile isMargin) = isMarginal l := by
  induction l with
  | nil => rfl
  | cons c cs ih =>
    by_cases hc : isMargin c = true
    · rw [List.dropWhile_cons_of_pos hc, ih]
      simp [isMarginal, hc]
    · rw [List.dropWhile_cons_of_neg hc]

/-- It can be seen without the margin at the end, too. -/
theorem isMarginal_trimEnd (l : List Char) : isMarginal (trimEnd isMargin l) = isMarginal l := by
  rw [trimEnd, isMarginal_reverse, isMarginal_dropWhile, isMarginal_reverse]

theorem stripFront_cons_of_pos (hl : isMarginal l = true)
    (ls : List (List Char)) : stripFront (l :: ls) = stripFront ls := by
  rw [stripFront, List.dropWhile_cons_of_pos hl, stripFront]

theorem stripFront_cons_of_neg (hl : ¬isMarginal l = true)
    (ls : List (List Char)) : stripFront (l :: ls) = l.dropWhile isMargin :: ls := by
  rw [stripFront, List.dropWhile_cons_of_neg hl, List.modifyHead_cons]

/-- Dropping margin in front of a text drops whole lines, and then what is in front of the
first one that is left. -/
theorem dropWhile_unlines (ls : List (List Char)) :
    (unlines ls).dropWhile isMargin = unlines (stripFront ls) := by
  induction ls with
  | nil => rfl
  | cons l ls ih =>
    rw [unlines_cons, List.dropWhile_append]
    by_cases hl : isMarginal l = true
    · rw [stripFront_cons_of_pos hl, ← ih, isMarginal_iff.1 hl]
      -- The break behind a line of margin is margin too.
      cases ls with
      | nil => rfl
      | cons l' ls =>
        rw [unlines_cons, below_cons]
        rfl
    · have hne : (l.dropWhile isMargin).isEmpty = false := by
        rwa [Bool.eq_false_iff, ne_eq, List.isEmpty_iff, ← isMarginal_iff]
      rw [stripFront_cons_of_neg hl, unlines_cons, hne]
      rfl

/-- Backwards, the margin at the end is the one in front. -/
theorem stripFront_map_reverse (ls : List (List Char)) :
    stripFront (ls.map List.reverse) =
      ((ls.dropWhile isMarginal).modifyHead (trimEnd isMargin)).map List.reverse := by
  induction ls with
  | nil => rfl
  | cons l ls ih =>
    have hreverse := isMarginal_reverse l
    rw [List.map_cons]
    by_cases hl : isMarginal l = true
    · rw [stripFront_cons_of_pos (hreverse.trans hl), ih, List.dropWhile_cons_of_pos hl]
    · rw [stripFront_cons_of_neg (by rwa [hreverse]), List.dropWhile_cons_of_neg hl,
        List.modifyHead_cons, List.map_cons, trimEnd, List.reverse_reverse]

/-- Trimming a text is stripping its lines. -/
theorem trim_unlines (ls : List (List Char)) : trim isMargin (unlines ls) = unlines (strip ls) := by
  rw [trim, dropWhile_unlines, trimEnd, reverse_unlines, dropWhile_unlines, stripFront_map_reverse,
    reverse_unlines, strip, stripBack, ← List.map_reverse, List.map_map]
  simp

/-- The form in which a source is scanned, line by line. -/
theorem normalize_eq (layout : Layout) (source : String) :
    normalize layout source = unlines (strip ((lines source).map (expandTabs layout))) := by
  rw [normalize, ← unlines_lines, expandTabs_unlines, trim_unlines]

/-- The text that is scanned starts with no margin. -/
theorem isMargin_head_normalize (layout : Layout) (source : String) :
    ∀ c ∈ (normalize layout source).head?, isMargin c = false := by
  intro c hc
  -- Trimming the end keeps the first character, which trimming the start has left.
  obtain ⟨cs, hcs⟩ := List.head?_eq_some_iff.1 (Option.mem_def.1 hc)
  let ds := expandTabs layout (unifyBreaks source.toList)
  obtain ⟨es, hes⟩ : normalize layout source <+: ds.dropWhile isMargin :=
    List.rdropWhile_prefix _ _
  have hfirst := List.head?_dropWhile_not isMargin ds
  rw [← hes, hcs] at hfirst
  simpa using hfirst

/-- The text that is scanned ends with no margin. -/
theorem isMargin_getLast_normalize (layout : Layout) (source : String) :
    ∀ c ∈ (normalize layout source).getLast?, isMargin c = false := by
  intro c hc
  let ds := (expandTabs layout (unifyBreaks source.toList)).dropWhile isMargin
  have hlast := List.head?_dropWhile_not isMargin ds.reverse
  have hc : (ds.reverse.dropWhile isMargin).head? = some c := by
    rwa [normalize, trim, trimEnd, List.getLast?_reverse] at hc
  rw [hc] at hlast
  simpa using hlast

section

variable {ls ls' : List (List Char)}

/-- Lines of margin in front are all dropped. -/
theorem stripFront_append_of_all (h : ∀ l ∈ ls, isMarginal l = true) :
    stripFront (ls ++ ls') = stripFront ls' := by
  rw [stripFront, List.dropWhile_append_of_pos h, stripFront]

/-- Nothing is dropped behind a line that holds more than margin. -/
theorem stripFront_append_of_any (h : ∃ l ∈ ls, isMarginal l = false) :
    stripFront (ls ++ ls') = stripFront ls ++ ls' := by
  have hne : ls.dropWhile isMarginal ≠ [] := by
    rw [ne_eq, List.dropWhile_eq_nil_iff]
    simpa using h
  obtain ⟨l, kept, hkept⟩ := List.exists_cons_of_ne_nil hne
  rw [stripFront, List.dropWhile_append, stripFront, hkept]
  rfl

theorem stripBack_append_of_all (h : ∀ l ∈ ls', isMarginal l = true) :
    stripBack (ls ++ ls') = stripBack ls := by
  have h' : ∀ l ∈ ls'.reverse, isMarginal l = true := by simpa using h
  rw [stripBack, List.reverse_append, List.dropWhile_append_of_pos h', stripBack]

theorem stripBack_append_of_any (h : ∃ l ∈ ls', isMarginal l = false) :
    stripBack (ls ++ ls') = ls ++ stripBack ls' := by
  have hne : ls'.reverse.dropWhile isMarginal ≠ [] := by
    rw [ne_eq, List.dropWhile_eq_nil_iff]
    simpa using h
  obtain ⟨l, kept, hkept⟩ := List.exists_cons_of_ne_nil hne
  rw [stripBack, List.reverse_append, List.dropWhile_append, stripBack, hkept]
  simp

variable {l : List Char} {c : Char}

/-- Dropping lines in front and trimming the first one that is left brings no other characters. -/
theorem mem_of_mem_modifyHead {trim : List Char → List Char} (htrim : ∀ l, ∀ c ∈ trim l, c ∈ l)
    (hl : l ∈ (ls.dropWhile isMarginal).modifyHead trim) (hc : c ∈ l) : ∃ l' ∈ ls, c ∈ l' := by
  have hsublist := List.dropWhile_sublist isMarginal (l := ls)
  cases hkept : ls.dropWhile isMarginal with
  | nil => simp [hkept] at hl
  | cons first kept =>
    rw [hkept] at hl hsublist
    rcases List.mem_cons.1 hl with rfl | hl
    · exact ⟨first, hsublist.subset (.head _), htrim first c hc⟩
    · exact ⟨l, hsublist.subset (.tail _ hl), hc⟩

/-- Stripping brings no other characters. -/
theorem mem_of_mem_stripFront (hl : l ∈ stripFront ls) (hc : c ∈ l) : ∃ l' ∈ ls, c ∈ l' :=
  mem_of_mem_modifyHead (fun _ _ hc => (List.dropWhile_sublist _).subset hc) hl hc

theorem mem_of_mem_strip (hl : l ∈ strip ls) (hc : c ∈ l) : ∃ l' ∈ ls, c ∈ l' := by
  rw [strip, stripBack, List.mem_reverse] at hl
  have htrim : ∀ l : List Char, ∀ c ∈ trimEnd isMargin l, c ∈ l := by
    intro l c hc
    rw [trimEnd, List.mem_reverse] at hc
    exact List.mem_reverse.1 ((List.dropWhile_sublist _).subset hc)
  obtain ⟨l', hl', hc'⟩ := mem_of_mem_modifyHead htrim hl hc
  exact mem_of_mem_stripFront (List.mem_reverse.1 hl') hc'

/-- The last line that is left holds more than margin. -/
theorem isMarginal_getLast_strip (hl : l ∈ (strip ls).getLast?) : isMarginal l = false := by
  rw [strip, stripBack, List.getLast?_reverse] at hl
  have hhead := List.head?_dropWhile_not isMarginal (stripFront ls).reverse
  cases hkept : (stripFront ls).reverse.dropWhile isMarginal with
  | nil => simp [hkept] at hl
  | cons last kept =>
    rw [hkept] at hl hhead
    obtain rfl : trimEnd isMargin last = l := Option.some.inj hl
    rw [isMarginal_trimEnd]
    simpa using hhead

/-- Nothing else is stripped where the first line starts and the last one ends with a
character that is not margin. -/
theorem strip_eq_self {init rest : List (List Char)} {front back : List Char} {d : Char}
    (hfront : ls = (c :: front) :: rest) (hback : ls = init ++ [back ++ [d]])
    (hc : isMargin c = false) (hd : isMargin d = false) (h : ∀ l ∈ ls', isMarginal l = true) :
    strip (ls ++ ls') = ls := by
  have hfirst : isMarginal (c :: front) = false := by simp [isMarginal, hc]
  have hfinal : isMarginal (back ++ [d]) = false := by simp [isMarginal, hd]
  have hfront' : stripFront (ls ++ ls') = ls ++ ls' := by
    rw [hfront, List.cons_append, stripFront_cons_of_neg (by simp [hfirst]),
      List.dropWhile_cons_of_neg (by simp [hc])]
  have hback' : stripBack [back ++ [d]] = [back ++ [d]] := by
    simp [stripBack, hfinal, trimEnd, hd]
  rw [strip, hfront', stripBack_append_of_all h, hback,
    stripBack_append_of_any ⟨_, List.mem_singleton_self _, hfinal⟩, hback']

end

end Source

/-! ### Line breaks -/

namespace Scanner

variable {s : Scanner} {region : Region} {width : Nat} {c : Char} {cs : List Char}

/-- The spaces of a line are those in front of its text. -/
theorem takeWhile_spaces (hcs : cs.head? ≠ some ' ') :
    (List.replicate width ' ' ++ cs).takeWhile isSpace = List.replicate width ' ' := by
  refine takeWhile_append_of_stop (fun c hc => ?_) fun c hc => ?_
  · rw [List.eq_of_mem_replicate hc]
    rfl
  · have hne : c ≠ ' ' := fun heq => hcs (heq ▸ hc)
    simpa [isSpace] using hne

theorem dropWhile_spaces (hcs : cs.head? ≠ some ' ') :
    (List.replicate width ' ' ++ cs).dropWhile isSpace = cs := by
  have happ := List.takeWhile_append_dropWhile (p := isSpace) (l := List.replicate width ' ' ++ cs)
  rw [takeWhile_spaces hcs] at happ
  exact List.append_cancel_left happ

/-! What a scanner does at a line break depends on the width of the next line and on whether
that line is blank. -/

section

variable (hdeferred : s.deferred = [])

include hdeferred

/-- Outside of a region, a break is a newline in front of a blank line, and else it is compared
with the levels that are open. -/
theorem next_of_break (hregion : s.region = none)
    (hrest : s.rest = '\n' :: (List.replicate width ' ' ++ cs)) (hcs : cs.head? ≠ some ' ') :
    s.next = if cs.head? == some '\n' then { s with rest := cs, line := s.line + 1 }.yield .newline
      else { s with rest := cs, line := s.line + 1 }.indentTo width := by
  simp only [next, hdeferred, hrest, breakLine, takeWhile_spaces hcs, dropWhile_spaces hcs,
    List.length_replicate, hregion]

/-- Inside of a region, a break in front of a blank or a deeper line is an indent, and another
line ends the region. -/
theorem next_of_verbatim_break (hregion : s.region = some region)
    (hrest : s.rest = '\n' :: (List.replicate width ' ' ++ cs)) (hcs : cs.head? ≠ some ' ') :
    s.next = if cs.head? == some '\n' then { s with rest := cs, line := s.line + 1 }.yield .indent
      else if region.base < width then
        { s with
          rest := cs
          line := s.line + 1
          region := some { region with
            padding := width - (region.base + s.layout.tabWidth), opening := false }
        }.yield .indent
      else { s with rest := cs, line := s.line + 1, region := none }.indentTo width := by
  simp only [next, hdeferred, hrest, breakLine, takeWhile_spaces hcs, dropWhile_spaces hcs,
    List.length_replicate, hregion]

theorem next_blank (hregion : s.region = none)
    (hrest : s.rest = '\n' :: (List.replicate width ' ' ++ '\n' :: cs)) :
    s.next = (.ok ⟨.newline, s.line + 1⟩,
      { s with rest := '\n' :: cs, line := s.line + 1, last := some .newline }) := by
  rw [next_of_break hdeferred hregion hrest (by simp)]
  simp [yield, emit, Token.opensVerbatim, Lexeme.kind, Token.kind]

theorem next_verbatimBlank (hregion : s.region = some region)
    (hrest : s.rest = '\n' :: (List.replicate width ' ' ++ '\n' :: cs)) :
    s.next = (.ok ⟨.indent, s.line + 1⟩,
      { s with rest := '\n' :: cs, line := s.line + 1, last := some .indent }) := by
  rw [next_of_verbatim_break hdeferred hregion hrest (by simp)]
  simp [yield, emit, Token.opensVerbatim, Lexeme.kind, Token.kind]

variable (hrest : s.rest = '\n' :: (List.replicate width ' ' ++ c :: cs)) (hspace : c ≠ ' ')
  (hbreak : c ≠ '\n')

include hrest hspace hbreak

/-- A line that is not inside of a region, or ends it. -/
theorem next_line (hregion : ∀ region ∈ s.region, width ≤ region.base) :
    s.next = { s with rest := c :: cs, line := s.line + 1, region := none }.indentTo width := by
  have hcs : (c :: cs).head? ≠ some ' ' := by simpa using hspace
  have hblank : ((c :: cs).head? == some '\n') = false := by simpa using hbreak
  cases h : s.region with
  | none =>
    rw [next_of_break hdeferred h hrest hcs, hblank]
    simp only [h, Bool.false_eq_true, if_false]
  | some region =>
    have hwidth : ¬region.base < width := Nat.not_lt.2 (hregion region h)
    rw [next_of_verbatim_break hdeferred h hrest hcs, hblank, if_neg hwidth]
    simp only [Bool.false_eq_true, if_false]

/-- A line of a region gets the padding that its width says. -/
theorem next_verbatimLine (hregion : s.region = some region) (hwidth : region.base < width) :
    s.next = (.ok ⟨.indent, s.line + 1⟩,
      { s with
        rest := c :: cs
        line := s.line + 1
        region := some { region with
          padding := width - (region.base + s.layout.tabWidth), opening := false }
        last := some .indent }) := by
  have hcs : (c :: cs).head? ≠ some ' ' := by simpa using hspace
  have hblank : ((c :: cs).head? == some '\n') = false := by simpa using hbreak
  rw [next_of_verbatim_break hdeferred hregion hrest hcs, hblank]
  simp [yield, emit, hwidth, Token.opensVerbatim, Lexeme.kind, Token.kind]

end

end Scanner

end Offside
