import Offside.Proofs.Line.Source
import Offside.Proofs.Token.Seam

/-!
# The offside rule

A template whose lines hold nothing but the names of tags is scanned by the widths of its
lines alone. The widths that are open at a line make up a path down to the root
(`Rule.pathAt`): a deeper line puts its width on top, and a shallower one takes off all
widths above its own, which has to be one of those that are open.

`Rule.tokenize_rows` says that such a template can be scanned if and only if no line offends
against the rule, which lexemes it has then, and on which line scanning fails otherwise.
-/

set_option autoImplicit false

namespace Offside

open Offside.Character

/-! ### Closing levels -/

namespace Indentation

/-- The open widths, from the innermost one down to the root. -/
def path (i : Indentation) : List Nat :=
  i.levels.reverse

theorem path_eq (i : Indentation) : i.path = i.opened ++ [0] := by
  simp [path, levels]

/-- The innermost open width is on top of the path. -/
theorem path_eq_cons (i : Indentation) : i.path = i.current :: i.path.tail := by
  rw [path_eq]
  cases hopened : i.opened with
  | nil => simp [current, hopened]
  | cons width opened => simp [current, hopened]

theorem headD_path (i : Indentation) : i.path.headD 0 = i.current := by
  rw [path_eq_cons]
  rfl

/-- Levels are closed down to a width exactly if it is open, and those above it are the wider
ones. -/
theorem closeTo?_of_mem {i : Indentation} {w : Nat} (h : i.Ascending) (hw : w ∈ i.path) :
    ∃ j, i.closeTo? w = some ((i.path.takeWhile (w < ·)).length, j) ∧
      j.path = i.path.dropWhile (w < ·) ∧ j.Ascending := by
  rw [path, List.mem_reverse] at hw
  obtain ⟨j, closed, hclose, hlevels, hclosed, rfl, hj⟩ := closeTo?_of_mem_levels h hw
  have hwider : ∀ v ∈ closed.reverse, decide (j.current < v) = true := by
    simpa using hclosed
  -- The levels that are closed stand on top of those that stay open.
  have hpath : i.path = closed.reverse ++ j.current :: j.path.tail := by
    rw [path, hlevels, List.reverse_append, ← path, ← path_eq_cons]
  refine ⟨j, ?_, ?_, hj⟩
  · rw [hclose, hpath, List.takeWhile_append_of_pos hwider,
      List.takeWhile_cons_of_neg (by simp), List.append_nil, List.length_reverse]
  · rw [hpath, List.dropWhile_append_of_pos hwider, List.dropWhile_cons_of_neg (by simp),
      ← path_eq_cons]

/-- A width that is not open cannot be closed to. -/
theorem closeTo?_of_not_mem {i : Indentation} {w : Nat} (hw : w ∉ i.path) :
    i.closeTo? w = none := by
  rwa [path, List.mem_reverse, ← isSome_closeTo?, Option.not_isSome_iff_eq_none] at hw

end Indentation

/-! ### Lines and paths -/

namespace Rule

open Scanner (Emits)
open Source (Row)

/-- A line is the name of a tag, if it is not blank. -/
def Named : Row → Prop
  | .blank _ => True
  | .line _ name => Outline.IsName name

instance : (row : Row) → Decidable (Named row)
  | .blank _ => inferInstanceAs (Decidable True)
  | .line _ name => inferInstanceAs (Decidable (Outline.IsName name))

/-- The width on top of a path. -/
def top (path : List Nat) : Nat :=
  path.headD 0

/-- How many levels of a path a line of the given width closes. -/
def closed (path : List Nat) (width : Nat) : Nat :=
  (path.takeWhile (width < ·)).length

/-- The path behind a line of some width. A deeper line opens a level, all others close the
levels that are wider. -/
def turn (path : List Nat) (width : Nat) : List Nat :=
  if top path < width then width :: path else path.dropWhile (width < ·)

/-- A line as wide as the top of a path keeps the path. -/
theorem turn_top (path : List Nat) : turn path (top path) = path := by
  rw [turn, if_neg (Nat.lt_irrefl _)]
  cases path with
  | nil => rfl
  | cons width path => exact List.dropWhile_cons_of_neg (by simp [top])

/-- The path behind a line. Blank lines leave it as it is. -/
def follow (path : List Nat) : Row → List Nat
  | .blank _ => path
  | .line width _ => turn path width

/-- The path in front of a line, if the given one is open in front of the first line. -/
def pathAt (path : List Nat) (rows : List Row) (i : Nat) : List Nat :=
  (rows.take i).foldl follow path

/-- A line is shallower than the one before, but not as wide as an open level. -/
def Offends (path : List Nat) : Row → Prop
  | .blank _ => False
  | .line width _ => width < top path ∧ width ∉ path

instance (path : List Nat) : (row : Row) → Decidable (Offends path row)
  | .blank _ => inferInstanceAs (Decidable False)
  | .line _ _ => inferInstanceAs (Decidable (_ ∧ _))

/-- A line offends, if the given path is open in front of the first one. -/
def OffendsAt (path : List Nat) (rows : List Row) (i : Nat) : Prop :=
  ∃ row ∈ rows[i]?, Offends (pathAt path rows i) row

instance (path : List Nat) (rows : List Row) (i : Nat) : Decidable (OffendsAt path rows i) :=
  inferInstanceAs (Decidable (∃ row ∈ rows[i]?, Offends (pathAt path rows i) row))

/-- The lexemes of the line break in front of a line of some width, behind a path. -/
def between (path : List Nat) (width line : Nat) : List Lexeme :=
  if width = top path then [⟨.newline, line⟩]
  else if top path < width then [⟨.indent, line⟩]
  else List.replicate (closed path width) ⟨.outdent, line⟩

/-- The lexemes of a line, behind a path. -/
def lexemesOf (path : List Nat) (line : Nat) : Row → List Lexeme
  | .blank _ => [⟨.newline, line⟩]
  | .line width name => between path width line ++ [⟨.tag name, line⟩]

/-- The lexemes of some lines behind a path and a line, up to the end of the template. -/
def lexemes (path : List Nat) (line : Nat) : List Row → List Lexeme
  | [] => List.replicate (path.length - 1) ⟨.outdent, line⟩ ++ [⟨.eos, line⟩]
  | row :: rows => lexemesOf path (line + 1) row ++ lexemes (follow path row) (line + 1) rows

/-! ### Scanning the lines -/

/-- A scanner behind a line, with the levels of a path open. -/
structure Stands (s : Scanner) (path : List Nat) (line : Nat) (rest : List Char) : Prop where
  deferred : s.deferred = []
  region : s.region = none
  ascending : s.indents.Ascending
  path : s.indents.path = path
  line : s.line = line
  rest : s.rest = rest

variable {s : Scanner} {path : List Nat} {line width : Nat} {name : String} {rest : List Char}

/-- The name on a line is scanned as its tag. -/
theorem emits_name (hname : Outline.IsName name) (hrest : Outline.EndsLine rest)
    (hs : Stands s path line (name.toList ++ rest)) :
    ∃ s', Emits s [⟨.tag name, line⟩] s' ∧ Stands s' path line rest := by
  have hstop : ∀ c ∈ rest.head?, Character.isTagName c = false := by
    intro c hc
    rw [hrest c hc]
    rfl
  have hread := Outline.read_name hname hstop
  obtain ⟨c, cs, hcs, hc, -⟩ := hname.toList_eq
  rw [hcs] at hs hread
  obtain ⟨h, hread⟩ := hread
  have hbreak : c ≠ '\n' := by
    rintro rfl
    exact absurd hc (by decide)
  have hnext := Outline.next_of_read hs.deferred hs.region hs.rest hbreak hread rfl
  rw [hs.line] at hnext
  exact ⟨_, .single hnext (by rintro ⟨⟩),
    ⟨hs.deferred, hs.region, hs.ascending, hs.path, rfl, rfl⟩⟩

section

variable {c : Char} {cs : List Char} (hdeferred : s.deferred = [])
  (hrest : s.rest = '\n' :: (List.replicate width ' ' ++ c :: cs)) (hspace : c ≠ ' ')
  (hbreak : c ≠ '\n') (hregion : ∀ region ∈ s.region, width ≤ region.base)

include hdeferred hrest hspace hbreak hregion

/-- Between two lines, levels are opened or closed. A region that the line is not part of is
left. -/
theorem emits_between (hascending : s.indents.Ascending)
    (hopen : width < s.indents.current → width ∈ s.indents.path) :
    ∃ s', Emits s (between s.indents.path width (s.line + 1)) s' ∧
      Stands s' (turn s.indents.path width) (s.line + 1) (c :: cs) := by
  have hnext := Scanner.next_line hdeferred hrest hspace hbreak hregion
  have hcurrent : top s.indents.path = s.indents.current := s.indents.headD_path
  rw [Scanner.indentTo] at hnext
  dsimp only at hnext
  rw [between, turn, hcurrent]
  rcases Nat.lt_trichotomy width s.indents.current with hlt | heq | hgt
  · -- The width is open, and the levels above it are closed, all but one of them later.
    obtain ⟨j, hclose, hpath, hascending'⟩ := Indentation.closeTo?_of_mem hascending (hopen hlt)
    have hpos : 1 ≤ closed s.indents.path width := Indentation.pos_of_closeTo? hclose hlt
    rw [if_neg (Nat.ne_of_lt hlt), if_neg (Nat.lt_asymm hlt), hclose, hdeferred] at hnext
    let t : Scanner :=
      { s with
        rest := c :: cs, line := s.line + 1, region := none, indents := j
        last := some .outdent, deferred := [] }
    have hemits : Emits s
        (List.replicate (closed s.indents.path width - 1 + 1) ⟨.outdent, s.line + 1⟩) t :=
      .step hnext (by rintro ⟨⟩) (Scanner.emits_deferred (s := t) rfl rfl _ (s.line + 1))
    rw [Nat.sub_add_cancel hpos] at hemits
    rw [if_neg (Nat.ne_of_lt hlt), if_neg (Nat.lt_asymm hlt), if_neg (Nat.lt_asymm hlt)]
    exact ⟨t, hemits, ⟨rfl, rfl, hascending', hpath, rfl, rfl⟩⟩
  · rw [if_pos heq] at hnext
    have hturn : turn s.indents.path width = s.indents.path := by
      rw [heq, ← hcurrent, turn_top]
    rw [turn, hcurrent] at hturn
    rw [if_pos heq, hturn]
    exact ⟨_, .single hnext (by rintro ⟨⟩), ⟨hdeferred, rfl, hascending, rfl, rfl, rfl⟩⟩
  · have hpath : (s.indents.push width).path = width :: s.indents.path := by
      rw [Indentation.path_eq, Indentation.path_eq, Indentation.opened_push hgt]
      rfl
    rw [if_neg (Nat.ne_of_gt hgt), if_pos hgt] at hnext
    rw [if_neg (Nat.ne_of_gt hgt), if_pos hgt, if_pos hgt]
    exact ⟨_, .single hnext (by rintro ⟨⟩),
      ⟨hdeferred, rfl, hascending.push width, hpath, rfl, rfl⟩⟩

/-- No line can stand between two levels that are open. -/
theorem next_of_not_mem (hlt : width < s.indents.current) (hmem : width ∉ s.indents.path) :
    s.next.1 = .error (.malformedIndentation (s.line + 1)) := by
  rw [Scanner.next_line hdeferred hrest hspace hbreak hregion, Scanner.indentTo]
  dsimp only
  rw [if_neg (Nat.ne_of_lt hlt), if_neg (Nat.lt_asymm hlt), Indentation.closeTo?_of_not_mem hmem]

end

/-- In front of a name there is neither a space nor a line break. -/
theorem Stands.rest_tag (hname : Outline.IsName name)
    (hs : Stands s path line ('\n' :: ((Row.line width name).chars ++ rest))) :
    ∃ c cs, name.toList = c :: cs ∧ c ≠ ' ' ∧ c ≠ '\n' ∧
      s.rest = '\n' :: (List.replicate width ' ' ++ c :: (cs ++ rest)) := by
  obtain ⟨c, cs, hcs, hc, -⟩ := hname.toList_eq
  refine ⟨c, cs, hcs, ?_, ?_, ?_⟩
  · rintro rfl
    exact absurd hc (by decide)
  · rintro rfl
    exact absurd hc (by decide)
  · rw [hs.rest, Row.chars, hcs, List.append_assoc, List.cons_append]

/-- A line that does not offend is scanned as its lexemes. -/
theorem emits_row {row : Row} (hrow : Named row) (hfits : ¬Offends path row)
    (hrest : Outline.EndsLine rest) (hblank : row.isBlank = true → rest ≠ [])
    (hs : Stands s path line ('\n' :: (row.chars ++ rest))) :
    ∃ s', Emits s (lexemesOf path (line + 1) row) s' ∧
      Stands s' (follow path row) (line + 1) rest := by
  cases row with
  | blank width =>
    obtain ⟨c, cs, rfl⟩ := List.exists_cons_of_ne_nil (hblank rfl)
    obtain rfl := hrest c rfl
    have hnext := Scanner.next_blank hs.deferred hs.region hs.rest
    rw [hs.line] at hnext
    exact ⟨_, .single hnext (by rintro ⟨⟩),
      ⟨hs.deferred, hs.region, hs.ascending, hs.path, rfl, rfl⟩⟩
  | line width name =>
    obtain ⟨c, cs, hcs, hspace, hbreak, hchars⟩ := hs.rest_tag hrow
    have hopen : width < s.indents.current → width ∈ s.indents.path := by
      rw [← Indentation.headD_path, hs.path]
      intro hlt
      exact not_not.1 fun hmem => hfits ⟨hlt, hmem⟩
    obtain ⟨s₁, hbetween, hs₁⟩ := emits_between hs.deferred hchars hspace hbreak
      (by simp [hs.region]) hs.ascending hopen
    rw [hs.path, hs.line, ← List.cons_append, ← hcs] at hs₁
    rw [hs.path, hs.line] at hbetween
    obtain ⟨s', hemits, hs'⟩ := emits_name hrow hrest hs₁
    exact ⟨s', hbetween.trans hemits, hs'⟩

/-- On a line that offends scanning fails. -/
theorem failure_of_offends {row : Row} (hrow : Named row) (hoffends : Offends path row)
    (hs : Stands s path line ('\n' :: (row.chars ++ rest))) :
    s.tape.failure = some (.malformedIndentation (line + 1)) := by
  cases row with
  | blank width => exact hoffends.elim
  | line width name =>
    obtain ⟨c, cs, -, hspace, hbreak, hchars⟩ := hs.rest_tag hrow
    rw [← hs.path] at hoffends
    have hlt : width < s.indents.current := by
      rw [← Indentation.headD_path]
      exact hoffends.1
    have hnext := next_of_not_mem hs.deferred hchars hspace hbreak (by simp [hs.region]) hlt
      hoffends.2
    rw [Scanner.tape_of_error (Prod.ext hnext rfl), hs.line]

/-- Behind the last line all levels are closed. -/
theorem result_of_end (hs : Stands s path line []) :
    s.tape.result = .ok (lexemes path line []) := by
  have hdepth : path.length - 1 = s.indents.depth := by
    rw [← hs.path, Indentation.path_eq, List.length_append]
    exact Nat.add_sub_cancel _ 1
  rw [Tape.result_eq_ok_iff, (Scanner.tape_of_end hs.deferred hs.rest).1, lexemes, hdepth, hs.line]
  exact ⟨(Scanner.tape_of_end hs.deferred hs.rest).2, rfl⟩

/-- In front of other lines, a line that does not offend is scanned as its lexemes. -/
theorem emits_cons {row : Row} {rows : List Row} (hrow : Named row) (hfits : ¬Offends path row)
    (hlast : ∀ r ∈ (row :: rows).getLast?, r.isBlank = false)
    (hs : Stands s path line (Source.below ((row :: rows).map Row.chars))) :
    ∃ s', Emits s (lexemesOf path (line + 1) row) s' ∧
      Stands s' (follow path row) (line + 1) (Source.below (rows.map Row.chars)) := by
  refine emits_row hrow hfits (Source.endsLine_below _) ?_ hs
  intro hblank
  -- The last line is not blank, so it is another one.
  cases rows with
  | nil =>
    rw [hlast row rfl] at hblank
    cases hblank
  | cons row' rows => exact List.cons_ne_nil _ _

section

variable {rows : List Row} (hnamed : ∀ row ∈ rows, Named row)
  (hlast : ∀ row ∈ rows.getLast?, row.isBlank = false)
  (hs : Stands s path line (Source.below (rows.map Row.chars)))

include hnamed hlast hs

/-- Lines none of which offends are scanned one after the other. -/
theorem result_of_fits (hfits : ∀ i < rows.length, ¬OffendsAt path rows i) :
    s.tape.result = .ok (lexemes path line rows) := by
  induction rows generalizing s path line with
  | nil => exact result_of_end hs
  | cons row rows ih =>
    have hrow : ¬Offends path row :=
      fun hoffends => hfits 0 (Nat.succ_pos _) ⟨row, rfl, hoffends⟩
    obtain ⟨s', hemits, hs'⟩ := emits_cons (hnamed row (.head _)) hrow hlast hs
    have hresult := ih (fun r hr => hnamed r (.tail _ hr)) (Source.getLast?_tail hlast) hs'
      fun i hi => hfits (i + 1) (Nat.succ_lt_succ hi)
    obtain ⟨hfailure, hlexemes⟩ := Tape.result_eq_ok_iff.1 hresult
    rw [Tape.result_eq_ok_iff, hemits.tape.1, hemits.tape.2, hfailure, hlexemes]
    exact ⟨rfl, rfl⟩

/-- Scanning fails on the first line that offends. -/
theorem failure_of_first {i : Nat} (hoffends : OffendsAt path rows i)
    (hfirst : ∀ j < i, ¬OffendsAt path rows j) :
    s.tape.failure = some (.malformedIndentation (line + 1 + i)) := by
  induction rows generalizing s path line i with
  | nil =>
    obtain ⟨row, hrow, -⟩ := hoffends
    cases hrow
  | cons row rows ih =>
    cases i with
    | zero =>
      obtain ⟨row, ⟨⟩, hoffends⟩ := hoffends
      exact failure_of_offends (hnamed row (.head _)) hoffends hs
    | succ i =>
      have hrow : ¬Offends path row :=
        fun hoffends => hfirst 0 (Nat.succ_pos _) ⟨row, rfl, hoffends⟩
      obtain ⟨s', hemits, hs'⟩ := emits_cons (hnamed row (.head _)) hrow hlast hs
      have hfailure := ih (fun r hr => hnamed r (.tail _ hr)) (Source.getLast?_tail hlast) hs'
        hoffends
        fun j hj => hfirst (j + 1) (Nat.succ_lt_succ hj)
      rw [hemits.tape.2, hfailure, Nat.add_right_comm, Nat.add_assoc, Nat.add_comm i 1]

end

/-! ### Whole templates -/

/-- Lines of tags hold no tabs. -/
theorem expandTabs_chars (layout : Layout) {row : Row} (hrow : Named row) :
    Source.expandTabs layout row.chars = row.chars := by
  refine Outline.expandTabs_of_not_mem layout ?_
  cases row with
  | blank width => simp [Row.chars]
  | line width name => simp [Row.chars, Outline.IsName.not_mem hrow (c := '\t') (by decide)]

/-- Only the blank lines at the end of a template of tags are stripped. -/
theorem strip_rows {rows : List Row} (trailing : List Nat) (hname : Outline.IsName name)
    (hnamed : ∀ row ∈ rows, Named row) (hlast : ∀ row ∈ rows.getLast?, row.isBlank = false) :
    Source.strip ((Row.line 0 name :: rows ++ trailing.map Row.blank).map Row.chars) =
      (Row.line 0 name :: rows).map Row.chars := by
  have hend : ∃ init width last, Row.line 0 name :: rows = init ++ [Row.line width last] ∧
      Outline.IsName last := by
    rcases List.eq_nil_or_concat rows with rfl | ⟨init, row, rfl⟩
    · exact ⟨[], 0, name, rfl, hname⟩
    · rw [List.concat_eq_append] at hlast hnamed ⊢
      have hrow := hnamed row (List.mem_append_right _ (.head _))
      cases row with
      | blank width => cases hlast (.blank width) List.getLast?_concat
      | line width last => exact ⟨.line 0 name :: init, width, last, rfl, hrow⟩
  obtain ⟨init, width, last, hrows, hlast'⟩ := hend
  obtain ⟨c, cs, hcs, -⟩ := hname.toList_eq
  obtain ⟨d, ds, hds, -⟩ := hlast'.toList_eq
  obtain ⟨ds', d', hd⟩ : ∃ ds' d', last.toList = ds' ++ [d'] := by
    rw [hds]
    exact ⟨_, _, (List.dropLast_append_getLast (List.cons_ne_nil d ds)).symm⟩
  have hfront : (Row.line 0 name :: rows).map Row.chars = (c :: cs) :: rows.map Row.chars := by
    rw [List.map_cons, Row.chars, hcs]
    rfl
  have hback : (Row.line 0 name :: rows).map Row.chars =
      init.map Row.chars ++ [List.replicate width ' ' ++ ds' ++ [d']] := by
    rw [hrows, List.map_append, List.map_singleton, Row.chars, hd, List.append_assoc]
  rw [List.map_append]
  refine Source.strip_eq_self hfront hback (hname.isMargin_of_mem (c := c) (by simp [hcs]))
    (hlast'.isMargin_of_mem (c := d') (by simp [hd])) ?_
  simp [Source.isMarginal, Row.chars, Source.isMargin]

/-- A template of tags, the first one not indented, can be scanned if and only if no line
offends against the rule. Then its lexemes are those of its lines, and otherwise scanning
fails on the first line that offends. Blank lines at the end do not count. -/
theorem tokenize_rows (layout : Layout) {source : String} {rows : List Row} {trailing : List Nat}
    (hlines : Source.lines source =
      (Row.line 0 name :: rows ++ trailing.map Row.blank).map Row.chars)
    (hname : Outline.IsName name) (hnamed : ∀ row ∈ rows, Named row)
    (hlast : ∀ row ∈ rows.getLast?, row.isBlank = false) :
    ((∃ ls, tokenize layout source = .ok ls) ↔ ∀ i < rows.length, ¬OffendsAt [0] rows i) ∧
      ((∀ i < rows.length, ¬OffendsAt [0] rows i) →
        tokenize layout source = .ok (⟨.tag name, 1⟩ :: lexemes [0] 1 rows)) ∧
      ∀ i, OffendsAt [0] rows i → (∀ j < i, ¬OffendsAt [0] rows j) →
        tokenize layout source = .error (.malformedIndentation (i + 2)) := by
  have hrest : Source.normalize layout source =
      name.toList ++ Source.below (rows.map Row.chars) := by
    have htabs : (Source.lines source).map (Source.expandTabs layout) = Source.lines source := by
      rw [hlines, List.map_map]
      refine List.map_congr_left fun row hrow => expandTabs_chars layout ?_
      rcases List.mem_append.1 hrow with hrow | hrow
      · rcases List.mem_cons.1 hrow with rfl | hrow
        · exact hname
        · exact hnamed row hrow
      · obtain ⟨width, -, rfl⟩ := List.mem_map.1 hrow
        trivial
    rw [Source.normalize_eq, htabs, hlines, strip_rows trailing hname hnamed hlast, List.map_cons,
      Source.unlines_cons]
    rfl
  have hs : Stands (Scanner.ofSource layout source) [0] 1
      (name.toList ++ Source.below (rows.map Row.chars)) :=
    ⟨rfl, rfl, Indentation.ascending_empty, rfl, rfl, hrest⟩
  obtain ⟨s', hemits, hs'⟩ := emits_name hname (Source.endsLine_below _) hs
  have hok : (∀ i < rows.length, ¬OffendsAt [0] rows i) →
      tokenize layout source = .ok (⟨.tag name, 1⟩ :: lexemes [0] 1 rows) := by
    intro hfits
    obtain ⟨hfailure, hlexemes⟩ :=
      Tape.result_eq_ok_iff.1 (result_of_fits hnamed hlast hs' hfits)
    rw [tokenize_eq_tape, Tape.result_eq_ok_iff, hemits.tape.1, hemits.tape.2, hfailure, hlexemes]
    exact ⟨rfl, rfl⟩
  have herror : ∀ i, OffendsAt [0] rows i → (∀ j < i, ¬OffendsAt [0] rows j) →
      tokenize layout source = .error (.malformedIndentation (i + 2)) := by
    intro i hoffends hfirst
    rw [tokenize_eq_tape, Tape.result_eq_error_iff, hemits.tape.2,
      failure_of_first hnamed hlast hs' hoffends hfirst, Nat.add_comm]
  refine ⟨⟨?_, fun hfits => ⟨_, hok hfits⟩⟩, hok, herror⟩
  rintro ⟨ls, hls⟩ i - hoffends
  -- If any line offended, there would be a first one.
  classical
  have hex : ∃ i, OffendsAt [0] rows i := ⟨i, hoffends⟩
  rw [herror (Nat.find hex) (Nat.find_spec hex) fun j => Nat.find_min hex] at hls
  cases hls

/-- A template that closes two levels at once, and one with a width that is not open. -/
theorem tokenize_rows_list :
    tokenize {} "ul\n    li\n  \n        a\r\np\n  b\n" =
        .ok [⟨.tag "ul", 1⟩, ⟨.indent, 2⟩, ⟨.tag "li", 2⟩, ⟨.newline, 3⟩, ⟨.indent, 4⟩,
          ⟨.tag "a", 4⟩, ⟨.outdent, 5⟩, ⟨.outdent, 5⟩, ⟨.tag "p", 5⟩, ⟨.indent, 6⟩,
          ⟨.tag "b", 6⟩, ⟨.outdent, 6⟩, ⟨.eos, 6⟩] ∧
      tokenize {} "ul\n    li\n\n  b\np" = .error (.malformedIndentation 4) := by
  have hlist : Source.lines "ul\n    li\n  \n        a\r\np\n  b\n" =
      (Row.line 0 "ul" :: [.line 4 "li", .blank 2, .line 8 "a", .line 0 "p", .line 2 "b"] ++
        [0].map Row.blank).map Row.chars := by
    decide +kernel
  have hmalformed : Source.lines "ul\n    li\n\n  b\np" =
      (Row.line 0 "ul" :: [.line 4 "li", .blank 0, .line 2 "b", .line 0 "p"] ++
        [].map Row.blank).map Row.chars := by
    decide +kernel
  exact ⟨(tokenize_rows {} hlist (by decide) (by decide) (by decide)).2.1 (by decide),
    (tokenize_rows {} hmalformed (by decide) (by decide) (by decide)).2.2 2 (by decide) (by decide)⟩

end Rule

end Offside
