import Mathlib.Data.List.DropRight
import Offside.Proofs.Token.Standing

/-!
# Levels and lines

The brackets of a template say which lines are deeper than others. `Scanner.widthAt` is
the width of the line that a scan stands on, read off the template without regard to
open levels. `Scanner.encloses_of_closes` says that a level goes on exactly as long as
the lines are deeper than the one it belongs to: the scans in front of its closing
bracket stand on deeper lines, and the line behind it, if there is one, is not deeper.
-/

set_option autoImplicit false

namespace Offside.Scanner

open Brackets

variable {s s' : Scanner} {l : Lexeme} {width k : Nat}

/-! ### The width of a line -/

/-- The width of the line behind the next lexeme, where that of the current line is given.
A line break leads to another line, and blank lines do not count. -/
def widthAfter (s : Scanner) (width : Nat) : Nat :=
  match s.deferred, s.rest with
  | [], '\n' :: cs => if isBlankLine cs then width else lineWidth cs
  | _, _ => width

/-- The width of the line that the scan at a place of the tape stands on. An indent, an
outdent or a newline stands at the end of its line. -/
def widthAt (s : Scanner) : Nat → Nat
  | 0 => 0
  | k + 1 => (s.scanUpTo k).2.widthAfter (s.widthAt k)

/-- The current level is that of the current line. Inside of a verbatim region it is the
level of the line that opened the region, and at the end of the template levels are
closed without another line. -/
structure Lined (s : Scanner) (width : Nat) : Prop where
  le : s.indents.current ≤ width
  eq : s.region = none → s.rest ≠ [] → s.indents.current = width
  deferred : s.deferred ≠ [] → s.region = none

theorem widthAfter_of_break {cs : List Char} (hdeferred : s.deferred = [])
    (hrest : s.rest = '\n' :: cs) (width : Nat) :
    s.widthAfter width = if isBlankLine cs then width else lineWidth cs := by
  rw [widthAfter, hdeferred, hrest]
  rfl

theorem widthAfter_of_not_break (h : s.deferred ≠ [] ∨ s.rest.head? ≠ some '\n') (width : Nat) :
    s.widthAfter width = width := by
  unfold widthAfter
  split
  · next hdeferred hrest =>
    rw [hdeferred, hrest] at h
    rcases h with h | h <;> exact absurd rfl h
  · rfl

theorem region_emit_eq_none {l : Lexeme} :
    (s.emit l).2.region = none ↔ l.token.opensVerbatim = false ∧ s.region = none := by
  cases hopens : l.token.opensVerbatim <;> simp [emit, hopens]

theorem Lined.step (hs : s.Sound) (h : s.Lined width) (hstep : Step s (.ok l) s') :
    s'.Lined (s.widthAfter width) := by
  cases hstep with
  | deferred l ls hdeferred =>
    obtain rfl := hs.deferred l (by simp [hdeferred])
    rw [widthAfter_of_not_break (.inl (by simp [hdeferred]))]
    exact ⟨h.le, h.eq, fun _ => h.deferred (by simp [hdeferred])⟩
  | close w opened hdeferred hrest hopened =>
    have hsuffix : opened <:+ s.indents.opened := hopened ▸ List.suffix_cons w opened
    rw [widthAfter_of_not_break (.inr (by simp [hrest]))]
    exact ⟨Nat.le_trans (Indentation.current_le_of_suffix hs.ascending hsuffix) h.le,
      fun _ hne => absurd hrest hne, fun hne => absurd hdeferred hne⟩
  | eos hdeferred hrest hopened =>
    rw [widthAfter_of_not_break (.inr (by simp [hrest]))]
    exact ⟨h.le, h.eq, h.deferred⟩
  | token c cs token rest hdeferred hrest hc hread =>
    rw [widthAfter_of_not_break (.inr (by simp [hrest, hc]))]
    exact ⟨h.le, fun hregion _ => h.eq (region_emit_eq_none.1 hregion).2 (by simp [hrest]),
      fun hne => absurd hdeferred hne⟩
  | blank cs hdeferred hrest hregion hblank =>
    rw [widthAfter_of_break hdeferred hrest, if_pos hblank]
    exact ⟨h.le, fun _ _ => h.eq hregion (by simp [hrest]), fun hne => absurd hdeferred hne⟩
  | verbatimBlank cs region hdeferred hrest hregion hblank =>
    rw [widthAfter_of_break hdeferred hrest, if_pos hblank]
    exact ⟨h.le, fun hnone => absurd (hregion.symm.trans hnone) nofun,
      fun hne => absurd hdeferred hne⟩
  | verbatimLine cs region hdeferred hrest hregion hblank hdeeper =>
    -- The levels stay those of the line that opened the region, which is not as deep.
    have hbase := hs.region region hregion (by simp [hrest])
    rw [widthAfter_of_break hdeferred hrest, if_neg (by simp [hblank])]
    exact ⟨hbase ▸ Nat.le_of_lt hdeeper, nofun, fun hne => absurd hdeferred hne⟩
  | same cs hdeferred hrest hregion hblank hsame =>
    rw [widthAfter_of_break hdeferred hrest, if_neg (by simp [hblank])]
    exact ⟨Nat.le_of_eq hsame.symm, fun _ _ => hsame.symm, fun _ => rfl⟩
  | deeper cs hdeferred hrest hregion hblank hdeeper =>
    have hcurrent : (s.indents.push (lineWidth cs)).current = lineWidth cs := by
      rw [Indentation.current, Indentation.opened_push hdeeper]
      rfl
    rw [widthAfter_of_break hdeferred hrest, if_neg (by simp [hblank])]
    exact ⟨Nat.le_of_eq hcurrent, fun _ _ => hcurrent, fun _ => rfl⟩
  | shallower cs closed indents hdeferred hrest hregion hblank hshallower hclose =>
    obtain ⟨-, -, -, -, hcurrent⟩ := Indentation.closeTo?_eq_some hclose
    rw [widthAfter_of_break hdeferred hrest, if_neg (by simp [hblank])]
    exact ⟨Nat.le_of_eq hcurrent, fun _ _ => hcurrent, fun _ => rfl⟩

/-! ### Levels along a tape -/

/-- Whatever is not an outdent comes when nothing is put aside. -/
theorem deferred_of_step (hs : s.Sound) (hstep : Step s (.ok l) s') (hl : l.kind ≠ .outdent) :
    s.deferred = [] := by
  cases hstep with
  | deferred l ls hdeferred =>
    obtain rfl := hs.deferred l (by simp [hdeferred])
    exact absurd rfl hl
  | _ => assumption

/-- A step opens one level, or it closes some. -/
theorem Step.opened (hstep : Step s (.ok l) s') :
    s'.indents.opened <:+ s.indents.opened ∨ s.indents.opened <:+ s'.indents.opened := by
  cases hstep with
  | close w opened hdeferred hrest hopened =>
    rw [hopened]
    exact .inl (List.suffix_cons w opened)
  | deeper cs hdeferred hrest hregion hblank hdeeper =>
    rw [Indentation.opened_push hdeeper]
    exact .inr (List.suffix_cons _ _)
  | shallower cs closed indents hdeferred hrest hregion hblank hshallower hclose =>
    obtain ⟨gone, hgone, -⟩ := Indentation.closeTo?_eq_some hclose
    exact .inl ⟨gone, hgone.symm⟩
  | _ => exact .inl (List.suffix_refl _)

/-- Handing out what was put aside leaves the levels. -/
theorem Step.indents_of_deferred (hstep : Step s (.ok l) s') (hdeferred : s.deferred ≠ []) :
    s'.indents = s.indents := by
  cases hstep with
  | deferred => rfl
  | _ => exact absurd ‹_› hdeferred

/-- Inside a level there are more levels, unless some of them wait for their outdents. -/
theorem depth_lt_of_closes (hs : s.Sound) {i m : Nat} (h : Closes s.tape.scans i m) (hik : i < k)
    (hkm : k ≤ m) (hdeferred : (s.scanUpTo k).2.deferred = []) :
    (s.scanUpTo i).2.indents.depth < (s.scanUpTo k).2.indents.depth := by
  obtain ⟨t, ht, -⟩ := h.closes
  have hlen := (List.getElem?_eq_some_iff.1 ht).1
  have hi := hs.pending_scanUpTo (show i ≤ s.tape.scans.length by omega)
  have hk := hs.pending_scanUpTo (show k ≤ s.tape.scans.length by omega)
  have habove := h.above k hik hkm
  simp only [pending, hdeferred, List.length_nil] at hi hk
  omega

/-- Up to its closing bracket, a level stays where it was opened: meanwhile, levels are
opened above it and closed again. -/
theorem opened_of_closes (hs : s.Sound) {i m : Nat} (h : Closes s.tape.scans i m) (hik : i < k)
    (hkm : k ≤ m + 1) :
    (s.scanUpTo k).2.indents.opened <:+ (s.scanUpTo i).2.indents.opened ∨
      (s.scanUpTo i).2.indents.opened <:+ (s.scanUpTo k).2.indents.opened := by
  have hlen : m < s.tape.scans.length := by
    obtain ⟨t, ht, -⟩ := h.closes
    exact (List.getElem?_eq_some_iff.1 ht).1
  have hstep : ∀ k, k ≤ m → ∃ l, Step (s.scanUpTo k).2 (.ok l) (s.scanUpTo (k + 1)).2 := by
    intro k hk
    exact ⟨_, .of_next (next_scanUpTo (List.getElem?_eq_getElem (Nat.lt_of_le_of_lt hk hlen))).1⟩
  -- By induction on the places behind `i`: while something is put aside no level changes,
  -- and otherwise more levels are open than at `i`, so a step cannot go below those of `i`
  -- without leaving a part of them.
  induction k, hik using Nat.le_induction with
  | base =>
    obtain ⟨l, hl⟩ := hstep i (Nat.le_of_lt h.lt)
    exact hl.opened
  | succ k hik ih =>
    have hkm : k ≤ m := Nat.le_of_succ_le_succ hkm
    obtain ⟨l, hl⟩ := hstep k hkm
    specialize ih (Nat.le_succ_of_le hkm)
    by_cases hdeferred : (s.scanUpTo k).2.deferred = []
    · have hdepth := depth_lt_of_closes hs h hik hkm hdeferred
      have hkept := ih.resolve_left fun hsuffix => Nat.not_lt.2 hsuffix.length_le hdepth
      rcases hl.opened with hdown | hup
      · exact List.suffix_or_suffix_of_suffix hdown hkept
      · exact .inr (hkept.trans hup)
    · rw [hl.indents_of_deferred hdeferred]
      exact ih

/-! ### Levels and lines -/

/-- The scans between two places stand on deeper lines than the first of them, outdents
aside, and the line behind the second place is not deeper, if there is one. -/
structure Encloses (s : Scanner) (i m : Nat) : Prop where
  deeper : ∀ k t, i < k → k < m → s.tape.scans[k]? = some t → t.kind ≠ .outdent →
    s.widthAt i < s.widthAt k
  back : (s.scanUpTo (m + 1)).2.rest = [] ∨ s.widthAt (m + 1) ≤ s.widthAt i

theorem lined_scanUpTo (hs : s.Sound) (h : s.Lined 0) (hk : k ≤ s.tape.scans.length) :
    (s.scanUpTo k).2.Lined (s.widthAt k) :=
  scanUpTo_induction (motive := fun k s' => s'.Lined (s.widthAt k)) h
    (fun _ _ _ hsound ih hstep => ih.step hsound hstep) hs hk

/-- An indent comes with a line break. -/
theorem head?_of_indent (hs : s.Sound) (hstep : Step s (.ok l) s') (hl : l.kind = .indent) :
    s.rest.head? = some '\n' := by
  cases hstep with
  | deferred l ls hdeferred =>
    obtain rfl := hs.deferred l (by simp [hdeferred])
    cases hl
  | token c cs token rest hdeferred hrest hc hread =>
    exact absurd hl (kind_ne_of_readInline hread rfl)
  | close | eos => cases hl
  | _ => simp [*]

theorem Lined.region_of_outdent (hs : s.Sound) (h : s.Lined width) (hstep : Step s (.ok l) s')
    (hl : l.kind = .outdent) (hrest : s'.rest ≠ []) : s'.region = none := by
  cases hstep with
  | deferred l ls hdeferred =>
    obtain rfl := hs.deferred l (by simp [hdeferred])
    exact h.deferred (by simp [hdeferred])
  | close w opened hdeferred hnil => exact absurd hnil hrest
  | shallower => rfl
  | token c cs token rest hdeferred hcons hc hread =>
    exact absurd hl (kind_ne_of_readInline hread rfl)
  | _ => cases hl

/-- A level is closed where the lines are not deeper any more than the one it belongs to. -/
theorem encloses_of_closes (hs : s.Sound) (hlined : s.Lined 0) {i m : Nat}
    (h : Closes s.tape.scans i m) : s.Encloses i m := by
  obtain ⟨t, hi, ht⟩ := h.opens
  obtain ⟨t', hm, ht'⟩ := h.closes
  have hlen : m < s.tape.scans.length := (List.getElem?_eq_some_iff.1 hm).1
  have hle : i ≤ s.tape.scans.length := Nat.le_of_lt (Nat.lt_trans h.lt hlen)
  obtain ⟨hnext, hverbatim⟩ := next_scanUpTo hi
  simp only [Scan.opens, Bool.and_eq_true, beq_iff_eq, Bool.not_eq_true'] at ht
  have hstep := Step.of_next hnext
  have hsᵢ := (hs.scanUpTo i).1
  -- In front of the indent the current level is that of the line it stands behind.
  have hwidth : (s.scanUpTo i).2.indents.current = s.widthAt i :=
    (lined_scanUpTo hs hlined hle).eq (by simpa [ht.2] using hverbatim)
      fun hnil => by simpa [hnil] using head?_of_indent hsᵢ hstep ht.1
  refine ⟨?_, ?_⟩
  · intro k u hik hkm hk hu
    have hdeferred := deferred_of_step (hs.scanUpTo k).1 (.of_next (next_scanUpTo hk).1) hu
    have hdepth := depth_lt_of_closes hs h hik (Nat.le_of_lt hkm) hdeferred
    have hkept := (opened_of_closes hs h hik (by omega)).resolve_left fun hsuffix =>
      Nat.not_lt.2 hsuffix.length_le hdepth
    calc s.widthAt i = (s.scanUpTo i).2.indents.current := hwidth.symm
      _ < (s.scanUpTo k).2.indents.current :=
        Indentation.current_lt_of_suffix (hs.scanUpTo k).1.ascending hkept hdepth
      _ ≤ s.widthAt k := (lined_scanUpTo hs hlined (by omega)).le
  · -- If there is another line, its level is one of those that were open at `i`.
    refine Classical.or_iff_not_imp_left.2 fun hrest => ?_
    have hlinedₘ := lined_scanUpTo hs hlined (show m + 1 ≤ _ from hlen)
    have hregion := (lined_scanUpTo hs hlined (Nat.le_of_lt hlen)).region_of_outdent
      (hs.scanUpTo m).1 (.of_next (next_scanUpTo hm).1) (beq_iff_eq.1 ht') hrest
    have hdepth : (s.scanUpTo (m + 1)).2.indents.depth ≤ (s.scanUpTo i).2.indents.depth := by
      have hpᵢ := hs.pending_scanUpTo hle
      have hpₘ := hs.pending_scanUpTo (show m + 1 ≤ _ from hlen)
      have hdeferred := deferred_of_step hsᵢ hstep (by rw [← Scan.kind, ht.1]; decide)
      rw [h.back] at hpₘ
      simp only [pending, hdeferred, List.length_nil] at hpᵢ hpₘ
      omega
    have hsuffix : (s.scanUpTo (m + 1)).2.indents.opened <:+ (s.scanUpTo i).2.indents.opened := by
      have hlt : i < m + 1 := Nat.lt_succ_of_lt h.lt
      rcases opened_of_closes hs h hlt (Nat.le_refl _) with hdown | hup
      · exact hdown
      · exact ⟨[], (hup.eq_of_length_le hdepth).symm⟩
    calc s.widthAt (m + 1) = (s.scanUpTo (m + 1)).2.indents.current :=
        (hlinedₘ.eq hregion hrest).symm
      _ ≤ (s.scanUpTo i).2.indents.current :=
        Indentation.current_le_of_suffix hsᵢ.ascending hsuffix
      _ = s.widthAt i := hwidth

/-! ### What stands above a stray indent -/

/-- The kind of the last lexeme that is no newline, where that in front of the given
lexeme is known. -/
def kindAfter (kind : Option Token.Kind) (l : Lexeme) : Option Token.Kind :=
  if l.kind = .newline then kind else some l.kind

/-- At the end of a line outside of verbatim regions, the line can have a block unless it
is a document type or ends in text. -/
structure Heads (s : Scanner) (st : Standing) (kind : Option Token.Kind) : Prop where
  filter : st = .filter → s.region.isSome
  hosts : s.region = none → s.rest.head? = some '\n' →
    st.hosts = true ∨ kind = some .doctype ∨ kind = some .text

/-- A token inside a line outside of verbatim regions. -/
theorem Heads.hosts_after_token {st : Standing} {kind : Option Token.Kind} {token : Token}
    (h : s.Heads st kind) (hregion : s.region = none) (hopens : token.opensVerbatim = false)
    (hinline : token.kind.isInline = true) :
    (st.after token).hosts = true ∨ token.kind = .doctype ∨ token.kind = .text := by
  cases token with
  | tag name | idName name | className name => exact .inl rfl
  | attributes raw as =>
    have hne : st ≠ .filter := fun heq => by simpa [hregion] using h.filter heq
    rw [Standing.after, if_neg hne]
    exact .inl rfl
  | text value => exact .inr (.inr rfl)
  | doctype version => exact .inr (.inl rfl)
  | code expression buffered =>
    rw [Standing.after, if_neg (by simp [hopens])]
    exact .inl rfl
  | comment body buffered =>
    cases buffered with
    | true => exact .inl rfl
    | false => cases hopens
  | filter name | pipe => cases hopens
  | newline | indent | outdent | eos => cases hinline

theorem region_of_filter (hs : s.Sound) (hstep : Step s (.ok l) s') (hl : l.kind = .filter) :
    s'.region.isSome := by
  cases hstep with
  | deferred l ls hdeferred =>
    obtain rfl := hs.deferred l (by simp [hdeferred])
    cases hl
  | token c cs token rest hdeferred hrest hc hread =>
    cases token with
    | filter name => rfl
    | _ => cases hl
  | _ => cases hl

theorem Heads.step {st : Standing} {kind : Option Token.Kind} (hs : s.Sound) (hkeeps : s.Keeps st)
    (h : s.Heads st kind) (hstep : Step s (.ok l) s') :
    s'.Heads (st.after l.token) (kindAfter kind l) := by
  refine ⟨fun hfilter => region_of_filter hs hstep (Standing.kind_of_after_eq_filter hfilter), ?_⟩
  intro hregion hbreak
  cases hstep with
  | deferred l ls hdeferred =>
    exact absurd hbreak (hkeeps.outdent (hkeeps.deferred (by simp [hdeferred])))
  | close width opened hdeferred hrest | eos hdeferred hrest =>
    rw [hrest] at hbreak
    cases hbreak
  | token c cs token rest hdeferred hrest hc hread =>
    obtain ⟨hopens, hnone⟩ := region_emit_eq_none.1 hregion
    have hkind : kindAfter kind ⟨token, s.line⟩ = some token.kind :=
      if_neg (kind_ne_of_readInline hread rfl)
    rw [hkind, Option.some.injEq, Option.some.injEq]
    exact h.hosts_after_token hnone hopens (isInline_of_readInline hread)
  | blank cs hdeferred hrest hnone hblank =>
    rcases h.hosts hnone (by simp [hrest]) with hhosts | hkind
    · rw [Standing.after_newline rfl (.inl hhosts)]
      exact .inl rfl
    · exact .inr hkind
  | verbatimBlank cs region hdeferred hrest hsome => exact absurd (hsome.symm.trans hregion) nofun
  | verbatimLine => cases hregion
  | same cs hdeferred hrest hnone hblank | deeper cs hdeferred hrest hnone hblank
  | shallower cs closed indents hdeferred hrest hnone hblank =>
    -- The new line is not blank, so its end is not reached yet.
    have hblank : (cs.dropWhile Character.isSpace).head? ≠ some '\n' := by
      simpa [isBlankLine] using hblank
    exact absurd hbreak hblank

/-- A template does not start with a line break. -/
theorem head?_ofSource (layout : Layout) (source : String) :
    (ofSource layout source).rest.head? ≠ some '\n' := by
  intro hhead
  obtain ⟨cs, hcs⟩ := List.head?_eq_some_iff.1 hhead
  -- Trimming the end keeps the first character, which trimming the start has left.
  let ds := Source.expandTabs layout (Source.unifyBreaks source.toList)
  have hend : (ofSource layout source).rest <+: ds.dropWhile Source.isMargin :=
    List.rdropWhile_prefix _ _
  obtain ⟨es, hes⟩ := hend
  have hfirst := List.head?_dropWhile_not Source.isMargin ds
  rw [← hes, hcs] at hfirst
  cases hfirst

end Offside.Scanner

namespace Offside

open Brackets

/-- The kind of the last scan in front of a place that is no newline. -/
def Brackets.lastKind (ts : List Scan) (k : Nat) : Option Token.Kind :=
  (ts.take k).foldl (fun kind t => Scanner.kindAfter kind t.lexeme) none

theorem Scanner.heads_scanUpTo {s : Scanner} (hs : s.Sound) (hkeeps : s.Keeps .bare)
    (h : s.Heads .bare none) {k : Nat} (hk : k ≤ s.tape.scans.length) :
    (s.scanUpTo k).2.Heads (standing s.tape.scans k) (lastKind s.tape.scans k) := by
  refine scanUpTo_induction (motive := fun k s' =>
    s'.Heads (standing s.tape.scans k) (lastKind s.tape.scans k)) h ?_ hs hk
  intro k t ht hsound ih hstep
  have hlast : lastKind s.tape.scans (k + 1) =
      kindAfter (lastKind s.tape.scans k) t.lexeme := by
    rw [lastKind, List.take_add_one, ht, List.foldl_append]
    rfl
  rw [standing_succ ht, hlast]
  exact ih.step hsound
    (hkeeps.scanUpTo hs (Nat.le_of_lt (List.getElem?_eq_some_iff.1 ht).1)) hstep

/-- A stray indent stands below a document type or below text. -/
theorem Brackets.Stray.lastKind {layout : Layout} {source : String} {k : Nat}
    (h : Stray (Scanner.ofSource layout source).tape.scans k) :
    lastKind (Scanner.ofSource layout source).tape.scans k = some .doctype ∨
      lastKind (Scanner.ofSource layout source).tape.scans k = some .text := by
  have hs := Scanner.sound_ofSource layout source
  obtain ⟨⟨t, hk, ht⟩, hhosts⟩ := h
  simp only [Scan.opens, Bool.and_eq_true, beq_iff_eq, Bool.not_eq_true'] at ht
  have hle := Nat.le_of_lt (List.getElem?_eq_some_iff.1 hk).1
  have hheads := Scanner.heads_scanUpTo hs (Scanner.keeps_ofSource layout source)
    ⟨by rintro ⟨⟩, fun _ hbreak => absurd hbreak (Scanner.head?_ofSource layout source)⟩ hle
  obtain ⟨hnext, hverbatim⟩ := Scanner.next_scanUpTo hk
  have hregion : ((Scanner.ofSource layout source).scanUpTo k).2.region = none := by
    simpa [ht.2] using hverbatim
  refine (hheads.hosts hregion ?_).resolve_left (by simp [hhosts])
  exact Scanner.head?_of_indent (hs.scanUpTo k).1 (.of_next hnext) ht.1

end Offside
