import Offside.Proofs.Indentation
import Offside.Proofs.Token.Brackets

/-!
# Levels are opened and closed in balance

Levels are closed in four places: at once, later from what was put aside, at the end
of the template, and never for the indents of a verbatim region, which open none.
`Scanner.Sound` is what holds of a scanner at every point, and `Scanner.pending` is
the number of outdents it still owes. Each step keeps `Sound` (`Sound.step`) and
changes `pending` by what it opens and closes (`pending_of_ok`).

`levels_balanced` is what follows for whole runs: for any calls, also beyond failures,
and for templates that are scanned to their end.
-/

set_option autoImplicit false

namespace Offside

open Brackets

namespace Scanner

/-- What holds of a scanner at every point of a template. -/
structure Sound (s : Scanner) : Prop where
  /-- Only outdents of the current line are put aside. -/
  deferred : ∀ l ∈ s.deferred, l = ⟨.outdent, s.line⟩
  /-- The open widths ascend. -/
  ascending : s.indents.Ascending
  /-- A verbatim region was opened on a line of the current width. -/
  region : ∀ region, s.region = some region → s.rest ≠ [] → region.base = s.indents.current
  /-- Behind the end of the template nothing is left to do. -/
  ended : s.last = some .eos → s.deferred = [] ∧ s.rest = [] ∧ s.indents.opened = []

/-- The number of outdents a scanner owes. -/
def pending (s : Scanner) : Nat :=
  s.indents.depth + s.deferred.length

theorem sound_ofSource (layout : Layout) (source : String) : (ofSource layout source).Sound where
  deferred := by simp [ofSource]
  ascending := Indentation.ascending_empty
  region := by simp [ofSource]
  ended := by simp [ofSource]

variable {s s' : Scanner}

/-- A line behind which nothing is put aside leaves a sound scanner, given ascending
levels and a region that fits them. -/
theorem Sound.toLine {cs : List Char} {indents : Indentation}
    {region : Option Region} {last : Option Token.Kind} {deferred : List Lexeme}
    (hdeferred : ∀ l ∈ deferred, l = ⟨.outdent, s.line + 1⟩) (hindents : indents.Ascending)
    (hregion : ∀ r, region = some r → r.base = indents.current) (hlast : last ≠ some .eos) :
    Sound { s.toLine cs with indents, region, last, deferred } where
  deferred := hdeferred
  ascending := hindents
  region := fun r hr _ => hregion r hr
  ended := fun h => absurd h hlast

/-- Every step leaves a sound scanner. -/
theorem Sound.step {r : Except ScanError Lexeme} (hs : s.Sound) (h : Step s r s') : s'.Sound := by
  cases h with
  | deferred l ls hdeferred =>
    obtain rfl := hs.deferred l (by simp [hdeferred])
    refine ⟨?_, hs.ascending, ?_, ?_⟩
    · intro l hl
      exact hs.deferred l (by rw [hdeferred]; exact List.mem_cons_of_mem _ hl)
    · simpa [emit, Token.opensVerbatim] using hs.region
    · simp [emit, Lexeme.kind, Token.kind]
  | close width opened hdeferred hrest hopened =>
    refine ⟨hs.deferred, ?_, ?_, ?_⟩
    -- The levels around the closed one are in order as before.
    · have happ : s.indents.opened = [width] ++ (⟨opened⟩ : Indentation).opened := hopened
      exact hs.ascending.of_append happ
    · intro region hregion hne
      exact absurd hrest hne
    · simp
  | eos hdeferred hrest hopened =>
    exact ⟨hs.deferred, hs.ascending, hs.region, fun _ => ⟨hdeferred, hrest, hopened⟩⟩
  | token c cs token rest hdeferred hrest hc hread =>
    refine ⟨hs.deferred, hs.ascending, ?_, ?_⟩
    · intro region hregion _
      simp only [emit] at hregion
      split at hregion
      · exact (Option.some.inj hregion) ▸ rfl
      · exact hs.region region hregion (by simp [hrest])
    · intro hlast
      exact absurd (Option.some.inj hlast) (kind_ne_of_readInline hread rfl)
  | unknown c cs hdeferred hrest hc hread => exact hs
  | blank cs hdeferred hrest hregion hblank =>
    exact Sound.toLine (by simp [hdeferred]) hs.ascending (by simp [hregion]) (by simp)
  | verbatimBlank cs region hdeferred hrest hregion hblank =>
    refine Sound.toLine (by simp [hdeferred]) hs.ascending ?_ (by simp)
    intro r hr
    exact hs.region r hr (by simp [hrest])
  | verbatimLine cs region hdeferred hrest hregion hblank hwidth =>
    refine Sound.toLine (by simp [hdeferred]) hs.ascending ?_ (by simp)
    intro r hr
    rw [← Option.some.inj hr]
    exact hs.region region hregion (by simp [hrest])
  | same cs hdeferred hrest hregion hblank hwidth =>
    exact Sound.toLine (by simp [hdeferred]) hs.ascending (by simp) (by simp)
  | deeper cs hdeferred hrest hregion hblank hwidth =>
    exact Sound.toLine (by simp [hdeferred]) (hs.ascending.push _) (by simp) (by simp)
  | shallower cs closed indents hdeferred hrest hregion hblank hwidth hclose =>
    obtain ⟨gone, hgone, -⟩ := Indentation.closeTo?_eq_some hclose
    exact Sound.toLine (fun l hl => List.eq_of_mem_replicate hl) (hs.ascending.of_append hgone)
      (by simp) (by simp)
  | malformed cs hdeferred hrest hregion hblank hwidth hclose =>
    refine Sound.toLine (by simp [hdeferred]) hs.ascending (by simp) ?_
    intro hlast
    exact absurd (hs.ended hlast).2.1 (by simp [hrest])

/-! ### What a step opens and closes -/

/-- A failure leaves the number of outdents that are owed. -/
theorem pending_of_error {e : ScanError} (h : Step s (.error e) s') : s'.pending = s.pending := by
  cases h with
  | unknown => rfl
  | malformed => rfl

variable {l : Lexeme}

/-- A lexeme that opens a level adds to the outdents that are owed, one that closes a
level pays one of them, and no other changes their number. -/
theorem pending_of_ok (hs : s.Sound) (h : Step s (.ok l) s') :
    (s'.pending : Int) = s.pending + Scan.rise ⟨l, s.region.isSome⟩ := by
  cases h with
  | deferred l ls hdeferred =>
    obtain rfl := hs.deferred l (by simp [hdeferred])
    simp only [pending, emit, hdeferred, List.length_cons, Scan.rise_outdent]
    omega
  | close width opened hdeferred hrest hopened =>
    simp only [pending, Indentation.depth, hopened, List.length_cons, Scan.rise_outdent]
    omega
  | eos hdeferred hrest hopened => simp [pending]
  | token c cs token rest hdeferred hrest hc hread =>
    have hinline : token.kind.isInline = true := isInline_of_readInline hread
    have hrise : Scan.rise ⟨⟨token, s.line⟩, s.region.isSome⟩ = 0 := by
      cases hk : token.kind <;>
        simp_all [Scan.rise, Scan.opens, Scan.closes, Scan.kind, Lexeme.kind, Token.Kind.isInline]
    rw [hrise]
    simp [pending, emit]
  | blank cs hdeferred hrest hregion hblank => simp [pending]
  | verbatimBlank cs region hdeferred hrest hregion hblank => simp [pending, hregion]
  | verbatimLine cs region hdeferred hrest hregion hblank hwidth => simp [pending, hregion]
  | same cs hdeferred hrest hregion hblank hwidth => simp [pending]
  | deeper cs hdeferred hrest hregion hblank hwidth =>
    -- A region would have the current width, so the line cannot have closed one.
    have hnone : s.region = none := by
      cases hr : s.region with
      | none => rfl
      | some region =>
        have h₁ := hregion region hr
        have h₂ := hs.region region hr (by simp [hrest])
        omega
    simp only [pending, Indentation.depth, Indentation.opened_push hwidth, hnone,
      Option.isSome_none, Scan.rise_indent, List.length_cons, deferred_toLine]
    omega
  | shallower cs closed indents hdeferred hrest hregion hblank hwidth hclose =>
    -- Of the levels that are closed, one is paid now and the others are put aside.
    have hpos := Indentation.pos_of_closeTo? hclose hwidth
    obtain ⟨gone, hgone, rfl, -⟩ := Indentation.closeTo?_eq_some hclose
    simp only [pending, Indentation.depth, hgone, hdeferred, List.length_append,
      List.length_replicate, List.length_nil, Scan.rise_outdent]
    omega

/-- A template ends where nothing is left of it and no level is open. -/
theorem Step.end_of_eos (h : Step s (.ok l) s') (hs : s.Sound) (hl : l.kind = .eos) :
    s.deferred = [] ∧ s.rest = [] ∧ s.indents.opened = [] ∧ l.token = .eos ∧ s'.rest = [] := by
  cases h with
  | deferred l ls hdeferred =>
    obtain rfl := hs.deferred l (by simp [hdeferred])
    cases hl
  | eos hdeferred hrest hopened => exact ⟨hdeferred, hrest, hopened, rfl, hrest⟩
  | token c cs token rest hdeferred hrest hc hread =>
    exact absurd hl (kind_ne_of_readInline hread rfl)
  | _ => cases hl

/-- The end of the template comes when no outdent is owed. -/
theorem pending_of_eos (hs : s.Sound) (h : Step s (.ok l) s')
    (hl : l.kind = .eos) : s.pending = 0 := by
  obtain ⟨hdeferred, -, hopened, -⟩ := h.end_of_eos hs hl
  simp [pending, Indentation.depth, hdeferred, hopened]

/-! ### Whole runs -/

/-- Scanning lexemes keeps a scanner sound, and the outdents it owes at the end are
those it owed at the start and those of the levels opened meanwhile. -/
theorem Sound.scanUpTo (hs : s.Sound) (n : Nat) :
    (s.scanUpTo n).2.Sound ∧
      ((s.scanUpTo n).2.pending : Int) = s.pending + net (s.scanUpTo n).1 := by
  induction n generalizing s with
  | zero => exact ⟨hs, by simp [Scanner.scanUpTo]⟩
  | succ n ih =>
    rcases h : s.next with ⟨e | l, s'⟩
    · -- Nothing is scanned, but the scanner may have gone on to the next line.
      have hstep := Step.of_next h
      rw [scanUpTo_of_error n h]
      exact ⟨hs.step hstep, by simp [pending_of_error hstep]⟩
    · have hstep := Step.of_next h
      obtain ⟨hsound, hpending⟩ := ih (hs.step hstep)
      rw [scanUpTo_of_ok n h]
      refine ⟨hsound, ?_⟩
      rw [hpending, pending_of_ok hs hstep, net_cons]
      omega

variable {k : Nat}

/-- The scanner that has come to a place owes the outdents of the brackets open there. -/
theorem Sound.pending_scanUpTo (hs : s.Sound) (hk : k ≤ s.tape.scans.length) :
    ((s.scanUpTo k).2.pending : Int) = s.pending + height s.tape.scans k := by
  rw [(hs.scanUpTo k).2, fst_scanUpTo hk]
  rfl

/-- Induction along the scanners that come to the places of a tape. -/
theorem scanUpTo_induction {motive : Nat → Scanner → Prop} (zero : motive 0 s)
    (succ : ∀ k t, s.tape.scans[k]? = some t → (s.scanUpTo k).2.Sound → motive k (s.scanUpTo k).2 →
      Step (s.scanUpTo k).2 (.ok t.lexeme) (s.scanUpTo (k + 1)).2 →
      motive (k + 1) (s.scanUpTo (k + 1)).2)
    (hs : s.Sound) (hk : k ≤ s.tape.scans.length) : motive k (s.scanUpTo k).2 := by
  induction k with
  | zero => exact zero
  | succ k ih =>
    have ht := List.getElem?_eq_getElem hk
    exact succ k _ ht (hs.scanUpTo k).1 (ih (Nat.le_of_succ_le hk))
      (Step.of_next (next_scanUpTo ht).1)

/-- No prefix of a tape closes more than was open at its start and is opened in it. -/
theorem Sound.neg_pending_le_height (hs : s.Sound) (k : Nat) :
    -(s.pending : Int) ≤ height s.tape.scans k := by
  rcases Nat.le_total k s.tape.scans.length with hk | hk
  · have := hs.pending_scanUpTo hk
    omega
  · -- Behind the tape the height stays what it is at the end.
    have := hs.pending_scanUpTo (Nat.le_refl s.tape.scans.length)
    rw [height_of_length_le hk, ← height_of_length_le (Nat.le_refl _)]
    omega

/-- In front of the end of the template all levels are closed. -/
theorem Sound.height_eos (hs : s.Sound) {t : Scan}
    (hk : s.tape.scans[k]? = some t) (ht : t.kind = .eos) :
    height s.tape.scans k = - (s.pending : Int) := by
  have hlt := (List.getElem?_eq_some_iff.1 hk).1
  have hpending := hs.pending_scanUpTo (Nat.le_of_lt hlt)
  have hzero := pending_of_eos (hs.scanUpTo k).1 (Step.of_next (next_scanUpTo hk).1) ht
  omega

/-- A tape without failure ends with the end of the template. -/
theorem getLast?_tape (h : s.tape.failure = none) :
    ∃ t, s.tape.scans.getLast? = some t ∧ t.kind = .eos := by
  obtain ⟨front, -, ⟨e, hfailure, -⟩ | ⟨-, t, ht, hscans⟩⟩ := s.exists_front_of_scans
  · cases h.symm.trans hfailure
  · exact ⟨t, by rw [hscans, List.getLast?_concat], ht⟩

/-- The end of the template is the last scan on a tape. -/
theorem length_tape_of_eos {t : Scan} (hk : s.tape.scans[k]? = some t)
    (ht : t.kind = .eos) : s.tape.scans.length = k + 1 := by
  obtain ⟨front, hfront, ⟨e, -, hscans⟩ | ⟨-, u, -, hscans⟩⟩ := s.exists_front_of_scans
  · exact absurd ht (hfront t (hscans ▸ List.mem_of_getElem? hk))
  · rw [hscans] at hk ⊢
    have hge : front.length ≤ k := by
      by_contra hlt
      rw [List.getElem?_append_left (Nat.not_le.1 hlt)] at hk
      exact hfront t (List.mem_of_getElem? hk) ht
    have hlt := (List.getElem?_eq_some_iff.1 hk).1
    rw [List.length_append, List.length_singleton] at hlt ⊢
    omega

end Scanner

namespace Stream

/-- Calls keep the scanner of a stream sound, and the outdents it owes are those of
the levels opened meanwhile. -/
theorem sound_run {s : Stream} (hs : s.scanner.Sound) (calls : List Call) :
    (s.run calls).scanner.Sound ∧
      ((s.run calls).scanner.pending : Int) = s.scanner.pending + net (s.scans calls) := by
  induction calls generalizing s with
  | nil => exact ⟨hs, by simp [run, scans]⟩
  | cons call calls ih =>
    obtain ⟨hsound, hpending⟩ := hs.scanUpTo (call.demand s)
    rw [← scanner_perform] at hsound hpending
    obtain ⟨hsound', hpending'⟩ := ih hsound
    refine ⟨hsound', ?_⟩
    rw [run, hpending', hpending, scans, net_append]
    exact Int.add_assoc _ _ _

end Stream

/-- If a template can be scanned, all levels are closed at its end. -/
theorem Scanner.Sound.net_tape {s : Scanner} (hs : s.Sound) (h : s.tape.failure = none) :
    net s.tape.scans = - (s.pending : Int) := by
  obtain ⟨t, hlast, ht⟩ := Scanner.getLast?_tape h
  rw [List.getLast?_eq_getElem?] at hlast
  have hheight := hs.height_eos hlast ht
  have hpos : 0 < s.tape.scans.length := by
    by_contra hzero
    have hnil := List.length_eq_zero_iff.1 (by omega : s.tape.scans.length = 0)
    rw [hnil] at hlast
    simp at hlast
  have hrise : t.rise = 0 := by simp [Scan.rise, Scan.opens, Scan.closes, ht]
  -- The end itself opens and closes nothing, so the height stays behind it.
  have hsucc := height_succ hlast
  rw [Nat.sub_add_cancel hpos, height_of_length_le (Nat.le_refl _)] at hsucc
  rw [hsucc, hheight, hrise, Int.add_zero]

/-- No prefix of a template closes more than it opens. -/
theorem Brackets.height_nonneg (layout : Layout) (source : String) (k : Nat) :
    0 ≤ height (Scanner.ofSource layout source).tape.scans k :=
  (Scanner.sound_ofSource layout source).neg_pending_le_height k

/-- Indents and outdents are in balance, for every template and every width of tabs.

In every state that calls of `advance` and `predict` lead to, also beyond failures, the
indents scanned outside of verbatim regions exceed the outdents scanned by the levels
that are open and the lexemes put aside; the latter are outdents; the open widths
ascend; a region that is open in front of the end has the current width as its base;
and no level is open behind the end of the template.

So if the template can be scanned to its end, indents and outdents match one to one,
the outdents never get ahead, and all levels are closed in front of the end. -/
theorem levels_balanced (layout : Layout) (source : String) :
    (∀ calls : List Call,
      let ts := (Stream.ofSource layout source).scans calls
      let s := ((Stream.ofSource layout source).run calls).scanner
      (opened ts : Int) - closed ts = s.indents.depth + s.deferred.length ∧
        (∀ l ∈ s.deferred, l.kind = .outdent) ∧
        s.indents.levels.Pairwise (· < ·) ∧
        (∀ region, s.region = some region → s.rest ≠ [] → region.base = s.indents.current) ∧
        (s.last = some .eos → s.indents.depth = 0)) ∧
    ∀ lexemes, tokenize layout source = .ok lexemes →
      ∃ ts, (Scanner.ofSource layout source).tape = ⟨ts, none⟩ ∧ ts.map (·.lexeme) = lexemes ∧
        (∀ i, OpensAt ts i → ∃! j, Closes ts i j) ∧
        (∀ j, ClosesAt ts j → ∃! i, Closes ts i j) ∧
        (∀ k, closed (ts.take k) ≤ opened (ts.take k)) ∧
        ∀ k t, ts[k]? = some t → t.kind = .eos → opened (ts.take k) = closed (ts.take k) := by
  have hstart := Scanner.sound_ofSource layout source
  have hzero : (Scanner.ofSource layout source).pending = 0 := rfl
  -- The balance of every state is what runs preserve; the rest is read off the tape.
  constructor
  · intro calls
    obtain ⟨hs, hpending⟩ := Stream.sound_run (s := .ofSource layout source) hstart calls
    have hpending' : (Stream.ofSource layout source).scanner.pending = 0 := hzero
    rw [hpending', net_eq] at hpending
    refine ⟨?_, ?_, hs.ascending, hs.region, ?_⟩
    · simp only [Scanner.pending] at hpending
      omega
    · intro l hl
      rw [hs.deferred l hl]
      rfl
    · intro hlast
      simp [Indentation.depth, (hs.ended hlast).2.2]
  · intro lexemes h
    rw [tokenize_eq_tape, Tape.result_eq_ok_iff] at h
    have hnet := hstart.net_tape h.1
    rw [hzero] at hnet
    have hheight := height_nonneg layout source
    refine ⟨(Scanner.ofSource layout source).tape.scans, ?_, h.2, ?_, ?_, ?_, ?_⟩
    · rw [← h.1]
    · intro i hi
      exact existsUnique_closes_of_opens hnet hheight hi
    · intro j hj
      exact existsUnique_closes_of_closes hheight hj
    · intro k
      have hk := hheight k
      rw [height, net_eq] at hk
      omega
    · intro k t hk ht
      have heos := hstart.height_eos hk ht
      rw [hzero, height, net_eq] at heos
      omega

/-- A list with a text that runs over two lines: two of the three indents open levels,
and the dedent behind them closes both. -/
theorem levels_balanced_list :
    tokenize {} "ul\n  li\n    | a\n      b\np" = .ok
        [⟨.tag "ul", 1⟩, ⟨.indent, 2⟩, ⟨.tag "li", 2⟩, ⟨.indent, 3⟩, ⟨.pipe, 3⟩, ⟨.text "a", 3⟩,
          ⟨.indent, 4⟩, ⟨.text "b", 4⟩, ⟨.outdent, 5⟩, ⟨.outdent, 5⟩, ⟨.tag "p", 5⟩, ⟨.eos, 5⟩] ∧
      ∃ ts, (Scanner.ofSource {} "ul\n  li\n    | a\n      b\np").tape = ⟨ts, none⟩ ∧
        ∀ i, OpensAt ts i → ∃! j, Closes ts i j := by
  have h : tokenize {} "ul\n  li\n    | a\n      b\np" = .ok
      [⟨.tag "ul", 1⟩, ⟨.indent, 2⟩, ⟨.tag "li", 2⟩, ⟨.indent, 3⟩, ⟨.pipe, 3⟩, ⟨.text "a", 3⟩,
        ⟨.indent, 4⟩, ⟨.text "b", 4⟩, ⟨.outdent, 5⟩, ⟨.outdent, 5⟩, ⟨.tag "p", 5⟩, ⟨.eos, 5⟩] := by
    decide +kernel
  obtain ⟨ts, htape, -, hopens, -⟩ := (levels_balanced _ _).2 _ h
  exact ⟨h, ts, htape, hopens⟩

end Offside
