import Mathlib.Data.List.Basic
import Offside.Proofs.Token.Balance

/-!
# Where a block can stand

Not every indent opens a block. A deeper line below a document type or below a line of
markup is indented like any other, but neither can have a block, so its indent is stray:
it opens a level and no block. `Standing` is what one has to know about the tokens in
front of an indent to tell.

`settle` marks the stray indents among some scans, so that the indents left are those
which open blocks. A bracket that is closed among the settled scans is closed too early
if a stray indent stands inside it: `closes_settle` compares the two ways to match.
-/

set_option autoImplicit false

namespace Offside

/-- What an indent would mean, by the tokens in front of it. -/
inductive Standing where
  /-- There is nothing that can have a block. -/
  | bare
  /-- Behind the name of a filter, whose attribute list may follow. -/
  | filter
  /-- Behind a tag or what adds attributes to it; text or code may follow on the line. -/
  | tag
  /-- Behind a line that can have a block. -/
  | host
  /-- Behind code on the line of a tag that takes the lines below as they are. -/
  | code
  /-- Inside the lines taken by such code. Behind them the tag can still have a block. -/
  | text
deriving DecidableEq, Repr

namespace Standing

/-- Whether an indent would open a block. -/
def hosts : Standing → Bool
  | tag | host => true
  | _ => false

/-- The standing behind text that belongs to no tag, or behind an indent that opens no
block. -/
def taking : Standing → Standing
  | code | text => text
  | _ => bare

/-- The standing behind one more token. -/
def after (st : Standing) : Token → Standing
  | .tag _ | .idName _ | .className _ => tag
  | .attributes _ _ => if st = filter then bare else tag
  | .text _ => if st = tag then host else st.taking
  | .code expression buffered =>
    if (Token.code expression buffered).opensVerbatim then
      if st = tag then code else bare
    else host
  | .comment _ buffered => if buffered then host else bare
  | .filter _ => filter
  | .newline =>
    match st with
    | tag | host | text => host
    | code => code
    | bare | filter => bare
  | .indent => st.taking
  | .doctype _ | .pipe | .outdent | .eos => bare

@[simp] theorem hosts_taking (st : Standing) : st.taking.hosts = false := by
  cases st <;> rfl

@[simp] theorem taking_taking (st : Standing) : st.taking.taking = st.taking := by
  cases st <;> rfl

variable {st : Standing} {token : Token}

/-- Text and indents that cannot have a block are taken alike. -/
theorem after_of_not_hosts (hst : st.hosts = false)
    (h : token.kind = .text ∨ token.kind = .indent) : st.after token = st.taking := by
  cases token with
  | text value =>
    have hne : st ≠ tag := by
      rintro rfl
      cases hst
    rw [after, if_neg hne]
  | indent => rfl
  | _ => rcases h with h | h <;> cases h

/-- Newlines do not part a line from the block below it. -/
theorem after_newline (htoken : token.kind = .newline)
    (h : st.hosts = true ∨ st = text) : st.after token = host := by
  cases token with
  | newline =>
    cases st with
    | tag | host | text => rfl
    | _ => rcases h with h | h <;> cases h
  | _ => cases htoken

/-- Newlines do not part code from the lines it takes, and change nothing where there is
nothing. -/
theorem after_newline_eq_self (htoken : token.kind = .newline)
    (h : st = bare ∨ st = code) : st.after token = st := by
  cases token with
  | newline => rcases h with rfl | rfl <;> rfl
  | _ => cases htoken

/-- Behind a line that can have a block, the standing matters to newlines and indents only. -/
theorem after_host (h : token.kind ≠ .newline) : host.after token = bare.after token := by
  cases token with
  | newline => exact absurd rfl h
  | _ => rfl

/-- Behind a tag, the standing also matters to what can stand on its line. -/
theorem after_tag (hnewline : token.kind ≠ .newline) (htext : token.kind ≠ .text)
    (hcode : token.kind ≠ .code) : tag.after token = bare.after token := by
  cases token with
  | newline => exact absurd rfl hnewline
  | text value => exact absurd rfl htext
  | code expression buffered => exact absurd rfl hcode
  | _ => rfl

theorem after_text (hnewline : token.kind ≠ .newline)
    (htext : token.kind ≠ .text) (hindent : token.kind ≠ .indent) :
    text.after token = bare.after token := by
  cases token with
  | newline => exact absurd rfl hnewline
  | text value => exact absurd rfl htext
  | indent => exact absurd rfl hindent
  | _ => rfl

/-- An indent that opens a block has nothing to do with what stands in front of it. -/
theorem after_indent (htoken : token.kind = .indent)
    (hst : st.hosts = true) : st.after token = bare := by
  cases token with
  | indent =>
    cases st with
    | tag | host => rfl
    | _ => cases hst
  | _ => cases htoken

theorem after_outdent (st : Standing) (htoken : token.kind = .outdent) : st.after token = bare := by
  cases token with
  | outdent => rfl
  | _ => cases htoken

/-- Only the name of a filter leaves room for the attribute list of a filter. -/
theorem kind_of_after_eq_filter (h : st.after token = filter) : token.kind = .filter := by
  cases token with
  | filter name => rfl
  | attributes raw as | text value | code expression buffered | comment body buffered =>
    cases st <;> grind [after, taking]
  | newline | indent => cases st <;> cases h
  | _ => cases h

/-- A token that opens a verbatim region cannot have a block. -/
theorem hosts_after_of_opensVerbatim (st : Standing)
    (h : token.opensVerbatim = true) : (st.after token).hosts = false := by
  cases token with
  | filter name => rfl
  | pipe => rfl
  | comment body buffered =>
    cases buffered with
    | false => rfl
    | true => cases h
  | code expression buffered =>
    rw [after, if_pos h]
    split <;> rfl
  | _ => cases h

end Standing

namespace Brackets

/-- The standing in front of a place. -/
def standing (ts : List Scan) (k : Nat) : Standing :=
  (ts.take k).foldl (fun st t => st.after t.lexeme.token) .bare

/-- An indent that opens a level but no block. -/
def Stray (ts : List Scan) (k : Nat) : Prop :=
  OpensAt ts k ∧ (standing ts k).hosts = false

/-- Some scans with their stray indents marked as verbatim, so that they open nothing. -/
def settle (ts : List Scan) : List Scan :=
  ts.mapIdx fun k t => { t with verbatim := t.verbatim || !(standing ts k).hosts }

/-- How many more brackets are open in front of a place than among the settled scans. -/
def lag (ts : List Scan) (k : Nat) : Int :=
  height ts k - height (settle ts) k

variable {ts : List Scan} {k : Nat} {t : Scan}

theorem standing_succ (h : ts[k]? = some t) :
    standing ts (k + 1) = (standing ts k).after t.lexeme.token := by
  rw [standing, List.take_add_one, h, List.foldl_append]
  rfl

/-! ### Settled scans -/

theorem getElem?_settle (ts : List Scan) (k : Nat) :
    (settle ts)[k]? = ts[k]?.map fun t =>
      { t with verbatim := t.verbatim || !(standing ts k).hosts } := by
  rw [settle, List.getElem?_mapIdx]

theorem map_lexeme_settle (ts : List Scan) : (settle ts).map (·.lexeme) = ts.map (·.lexeme) := by
  refine List.ext_getElem? fun k => ?_
  rw [List.getElem?_map, List.getElem?_map, getElem?_settle, Option.map_map]
  rfl

theorem standing_settle (ts : List Scan) (k : Nat) : standing (settle ts) k = standing ts k := by
  -- Standings look at lexemes only, and settling leaves these as they are.
  have hfold : ∀ us : List Scan, us.foldl (fun st t => st.after t.lexeme.token) Standing.bare =
      (us.map (·.lexeme)).foldl (fun st l => st.after l.token) .bare := by
    intro us
    rw [List.foldl_map]
  rw [standing, standing, hfold, hfold, List.map_take, List.map_take,
    map_lexeme_settle]

theorem opensAt_settle : OpensAt (settle ts) k ↔ OpensAt ts k ∧ ¬Stray ts k := by
  unfold Stray OpensAt
  rw [getElem?_settle]
  cases ts[k]? with
  | none => simp
  | some t => cases hhosts : (standing ts k).hosts <;> simp [Scan.opens, Scan.kind]

theorem closesAt_settle : ClosesAt (settle ts) k ↔ ClosesAt ts k := by
  unfold ClosesAt
  rw [getElem?_settle]
  cases ts[k]? <;> simp [Scan.closes, Scan.kind]

/-! ### Stray indents make the settled scans lag behind -/

theorem lag_succ_of_stray (h : Stray ts k) : lag ts (k + 1) = lag ts k + 1 := by
  have hopens := height_succ_of_opensAt h.1
  obtain ⟨⟨t, hk, ht⟩, hhosts⟩ := h
  have hsettle : (settle ts)[k]? = some { t with verbatim := true } := by
    rw [getElem?_settle, hk, hhosts, Option.map_some, Bool.not_false, Bool.or_true]
  have hrise : Scan.rise { t with verbatim := true } = 0 := by
    rw [Scan.opens, Bool.and_eq_true, beq_iff_eq, Scan.kind] at ht
    simp [Scan.rise, Scan.opens, Scan.closes, Scan.kind, ht.1]
  rw [lag, lag, hopens, height_succ hsettle, hrise]
  omega

theorem lag_succ_of_not_stray (h : ¬Stray ts k) : lag ts (k + 1) = lag ts k := by
  have hopens : OpensAt (settle ts) k ↔ OpensAt ts k := by
    rw [opensAt_settle, and_iff_left h]
  -- Where nothing is stray, both heights rise and fall together.
  by_cases ho : OpensAt ts k
  · rw [lag, lag, height_succ_of_opensAt ho, height_succ_of_opensAt (hopens.2 ho)]
    omega
  · by_cases hc : ClosesAt ts k
    · rw [lag, lag, height_succ_of_closesAt hc, height_succ_of_closesAt (closesAt_settle.2 hc)]
      omega
    · -- Neither height changes where no level is opened or closed.
      have hflat : ∀ {us : List Scan}, ¬OpensAt us k → ¬ClosesAt us k →
          height us (k + 1) = height us k := by
        intro us ho hc
        have h₁ : ¬height us (k + 1) < height us k := fun hlt => hc (closesAt_of_height_lt hlt)
        have h₂ : ¬height us k < height us (k + 1) := fun hlt => ho (opensAt_of_lt_height hlt)
        omega
      rw [lag, lag, hflat ho hc, hflat (hopens.not.2 ho) (closesAt_settle.not.2 hc)]

variable {k' : Nat}

theorem lag_le (ts : List Scan) {k : Nat} (h : k ≤ k') : lag ts k ≤ lag ts k' := by
  induction h with
  | refl => exact Int.le_refl _
  | step h ih =>
    rename_i m
    by_cases hstray : Stray ts m
    · rw [Nat.succ_eq_add_one, lag_succ_of_stray hstray]
      omega
    · rw [Nat.succ_eq_add_one, lag_succ_of_not_stray hstray]
      exact ih

theorem lag_eq {k : Nat} (h : k ≤ k') (hstray : ∀ p, k ≤ p → p < k' → ¬Stray ts p) :
    lag ts k' = lag ts k := by
  induction h with
  | refl => rfl
  | step h ih =>
    rename_i m
    rw [Nat.succ_eq_add_one, lag_succ_of_not_stray (hstray m h (Nat.lt_succ_self m))]
    exact ih fun p hkp hpm => hstray p hkp (Nat.lt_succ_of_lt hpm)

/-- Among the settled scans a bracket is closed no later, and at the same place if and
only if no stray indent stands inside it. -/
theorem closes_settle {i j m : Nat} (hj : Closes (settle ts) i j) (hm : Closes ts i m) :
    j ≤ m ∧ (j = m ↔ ∀ p, i < p → p < m → ¬Stray ts p) := by
  have hheight : ∀ k, height ts k = height (settle ts) k + lag ts k := by
    intro k
    rw [lag]
    omega
  have hi : ¬Stray ts i := (opensAt_settle.1 hj.opens).2
  have hle : j ≤ m := by
    -- Up to `j` the height is above that of `i` among all scans as well.
    by_contra hlt
    have habove := hj.above (m + 1) (Nat.lt_succ_of_lt hm.lt) (by omega)
    have hlag := lag_le ts (show i ≤ m + 1 from Nat.le_succ_of_le (Nat.le_of_lt hm.lt))
    have hback := hm.back
    rw [hheight, hheight i] at hback
    omega
  refine ⟨hle, ?_, ?_⟩
  · rintro rfl p hip hpj hstray
    have hbefore : lag ts i ≤ lag ts p := lag_le ts (Nat.le_of_lt hip)
    have hafter : lag ts (p + 1) ≤ lag ts (j + 1) := lag_le ts (Nat.succ_le_succ (Nat.le_of_lt hpj))
    rw [lag_succ_of_stray hstray] at hafter
    have hback := hm.back
    rw [hheight, hheight i, hj.back] at hback
    omega
  · intro hstray
    have hnone : ∀ p, i ≤ p → p < m → ¬Stray ts p := by
      intro p hip hpm
      rcases Nat.eq_or_lt_of_le hip with rfl | hip
      · exact hi
      · exact hstray p hip hpm
    have hlag : ∀ k, i ≤ k → k ≤ m → lag ts k = lag ts i := by
      intro k hik hkm
      exact lag_eq hik fun p hip hpk => hnone p hip (Nat.lt_of_lt_of_le hpk hkm)
    -- Without stray indents the two heights run in parallel up to `m`.
    have hclosed : Closes (settle ts) i m := by
      refine closes_of_first hj.opens hm.lt ?_ ?_
      · have hstray : ¬Stray ts m := by
          intro h
          have hup := height_succ_of_opensAt h.1
          have hdown := height_succ_of_closesAt hm.closes
          omega
        have hback := hm.back
        rw [hheight, hheight i, lag_succ_of_not_stray hstray,
          hlag m (Nat.le_of_lt hm.lt) (Nat.le_refl m)] at hback
        omega
      · intro k hik hkm
        have habove := hm.above k hik hkm
        rw [hheight, hheight k, hlag k (Nat.le_of_lt hik) hkm] at habove
        omega
    exact hj.right_unique hclosed

end Brackets

namespace Scanner

open Brackets
open Offside.Character (Rest isSpace)

/-! ### What the scanner says about standings -/

/-- A scanner in front of which there is a standing: inside a verbatim region nothing can
have a block, and no line ends behind an outdent. -/
structure Keeps (s : Scanner) (st : Standing) : Prop where
  region : s.region.isSome → st.hosts = false
  filter : s.last = some .filter → st = .filter
  deferred : s.deferred ≠ [] → s.last = some .outdent
  outdent : s.last = some .outdent → s.rest.head? ≠ some '\n'

theorem keeps_ofSource (layout : Layout) (source : String) :
    (ofSource layout source).Keeps .bare where
  region := fun _ => rfl
  filter := nofun
  deferred := fun h => absurd rfl h
  outdent := nofun

variable {s s' : Scanner} {l : Lexeme} {st : Standing} {k : Nat}

theorem Step.last (h : Step s (.ok l) s') : s'.last = some l.kind := by
  cases h <;> rfl

/-- A token inside a line leaves nothing that can have a block if a region is open behind
it. -/
theorem Keeps.hosts_after_token {c : Char} {cs : List Char}
    {token : Token} {rest : Rest s.rest} (h : s.Keeps st) (hrest : s.rest = c :: cs)
    (hc : c ≠ '\n') (hread : s.readInline s.rest = some (token, rest))
    (hregion : token.opensVerbatim = true ∨ s.region.isSome = true) :
    (st.after token).hosts = false := by
  -- The region is opened by this token, or it was open before.
  rcases hregion with hopens | hregion
  · exact Standing.hosts_after_of_opensVerbatim st hopens
  · obtain ⟨region, hsome⟩ := Option.isSome_iff_exists.1 hregion
    have hhosts := h.region hregion
    -- Inside a region there is only text, and the attribute list of a filter.
    rcases readInline_of_region hsome hrest hc hread with hkind | ⟨hkind, -, hlast⟩
    · cases token with
      | text value =>
        have hne : st ≠ .tag := by
          rintro rfl
          cases hhosts
        rw [Standing.after, if_neg hne, Standing.hosts_taking]
      | _ => cases hkind
    · cases token with
      | attributes raw as =>
        rw [Standing.after, if_pos (h.filter hlast)]
        rfl
      | _ => cases hkind

/-- Every step leads to the standing behind its token. -/
theorem Keeps.step (hs : s.Sound) (h : s.Keeps st)
    (hstep : Step s (.ok l) s') : s'.Keeps (st.after l.token) := by
  cases hstep with
  | deferred l ls hdeferred =>
    obtain rfl := hs.deferred l (by simp [hdeferred])
    have hbreak := h.outdent (h.deferred (by simp [hdeferred]))
    exact ⟨fun _ => rfl, by rintro ⟨⟩, fun _ => rfl, fun _ => hbreak⟩
  | close width opened hdeferred hrest hopened =>
    exact ⟨fun _ => rfl, by rintro ⟨⟩, fun _ => rfl, fun _ => by simp [hrest]⟩
  | eos hdeferred hrest hopened =>
    exact ⟨fun _ => rfl, by rintro ⟨⟩, fun hne => absurd hdeferred hne, by rintro ⟨⟩⟩
  | token c cs token rest hdeferred hrest hc hread =>
    refine ⟨?_, ?_, fun hne => absurd hdeferred hne, fun hlast =>
      absurd (Option.some.inj hlast) (kind_ne_of_readInline hread rfl)⟩
    · intro hsome
      refine h.hosts_after_token hrest hc hread ?_
      by_cases hopens : token.opensVerbatim = true
      · exact .inl hopens
      · rw [emit, if_neg hopens] at hsome
        exact .inr hsome
    · intro hlast
      have hkind : token.kind = .filter := Option.some.inj hlast
      cases token with
      | filter name => rfl
      | _ => cases hkind
  | blank cs hdeferred hrest hregion hblank =>
    exact ⟨by simp [hregion], by rintro ⟨⟩, fun hne => absurd hdeferred hne, by rintro ⟨⟩⟩
  | verbatimBlank cs region hdeferred hrest hregion hblank =>
    exact ⟨fun _ => Standing.hosts_taking st, by rintro ⟨⟩, fun hne => absurd hdeferred hne,
      by rintro ⟨⟩⟩
  | verbatimLine cs region hdeferred hrest hregion hblank hwidth =>
    exact ⟨fun _ => Standing.hosts_taking st, by rintro ⟨⟩, fun hne => absurd hdeferred hne,
      by rintro ⟨⟩⟩
  | same cs hdeferred hrest hregion hblank hwidth =>
    exact ⟨by rintro ⟨⟩, by rintro ⟨⟩, fun hne => absurd hdeferred hne, by rintro ⟨⟩⟩
  | deeper cs hdeferred hrest hregion hblank hwidth =>
    exact ⟨by rintro ⟨⟩, by rintro ⟨⟩, fun hne => absurd hdeferred hne, by rintro ⟨⟩⟩
  | shallower cs closed indents hdeferred hrest hregion hblank hwidth hclose =>
    have hbreak : (cs.dropWhile isSpace).head? ≠ some '\n' := by
      simpa [isBlankLine] using hblank
    exact ⟨by rintro ⟨⟩, by rintro ⟨⟩, fun _ => rfl, fun _ => hbreak⟩

/-- Behind an outdent comes no line break. -/
theorem Keeps.kind_of_outdent (hs : s.Sound)
    (h : s.Keeps st) (hlast : s.last = some .outdent) (hstep : Step s (.ok l) s') :
    l.kind ≠ .newline ∧ l.kind ≠ .indent := by
  -- A line break is the only way to a newline or an indent.
  have hbreak := h.outdent hlast
  cases hstep with
  | deferred l ls hdeferred =>
    obtain rfl := hs.deferred l (by simp [hdeferred])
    exact ⟨nofun, nofun⟩
  | close => exact ⟨nofun, nofun⟩
  | eos => exact ⟨nofun, nofun⟩
  | token c cs token rest hdeferred hrest hc hread =>
    exact ⟨kind_ne_of_readInline hread rfl, kind_ne_of_readInline hread rfl⟩
  | blank cs hdeferred hrest | verbatimBlank cs region hdeferred hrest
  | verbatimLine cs region hdeferred hrest | same cs hdeferred hrest
  | deeper cs hdeferred hrest | shallower cs closed indents hdeferred hrest =>
    rw [hrest] at hbreak
    exact absurd rfl hbreak

/-- The scanner that has come to a place keeps the standing there. -/
theorem Keeps.scanUpTo (hs : s.Sound) (h : s.Keeps .bare)
    (hk : k ≤ s.tape.scans.length) : (s.scanUpTo k).2.Keeps (standing s.tape.scans k) := by
  refine scanUpTo_induction (motive := fun k s' => s'.Keeps (standing s.tape.scans k)) h ?_ hs hk
  intro k t ht hsound ih hstep
  rw [standing_succ ht]
  exact ih.step hsound hstep

/-- An indent at which a block can stand is not verbatim. -/
theorem Keeps.verbatim_tape (hs : s.Sound) (h : s.Keeps .bare)
    {t : Scan} (hk : s.tape.scans[k]? = some t)
    (hhosts : (standing s.tape.scans k).hosts = true) : t.verbatim = false := by
  obtain ⟨hlt, -⟩ := List.getElem?_eq_some_iff.1 hk
  have hkeeps := h.scanUpTo hs (Nat.le_of_lt hlt)
  rw [(next_scanUpTo hk).2, ← Bool.not_eq_true]
  intro hregion
  rw [hkeeps.region hregion] at hhosts
  cases hhosts

/-- Behind an outdent on a tape comes neither a newline nor an indent. -/
theorem Keeps.tape_outdent (hs : s.Sound) (h : s.Keeps .bare)
    {t t' : Scan} (hk : s.tape.scans[k]? = some t) (ht : t.kind = .outdent)
    (hk' : s.tape.scans[k + 1]? = some t') : t'.kind ≠ .newline ∧ t'.kind ≠ .indent := by
  obtain ⟨hlt, -⟩ := List.getElem?_eq_some_iff.1 hk
  have hlast : (s.scanUpTo (k + 1)).2.last = some .outdent := by
    rw [(Step.of_next (next_scanUpTo hk).1).last]
    exact congrArg some ht
  exact (h.scanUpTo hs hlt).kind_of_outdent (hs.scanUpTo (k + 1)).1 hlast
    (Step.of_next (next_scanUpTo hk').1)

end Scanner

/-! ### Regular scans -/

namespace Brackets

/-- Scans in which exactly those indents open something that can have a block. -/
structure Regular (ts : List Scan) : Prop where
  opens : ∀ {k t}, ts[k]? = some t → t.kind = .indent → t.opens = (standing ts k).hosts
  outdent : ∀ {k t t'}, ts[k]? = some t → t.kind = .outdent → ts[k + 1]? = some t' →
    t'.kind ≠ .newline ∧ t'.kind ≠ .indent
  /-- At the end no more brackets are open than anywhere in front of it. -/
  ends : ∀ {k}, (∀ t, ts[k]? = some t → t.kind = .eos) → ∀ q ≤ k, height ts k ≤ height ts q
  last : ∀ {k t}, ts[k]? = some t → t.kind = .eos → ts.length = k + 1

section

variable {layout : Layout} {source : String}

/-- At the end of a template all levels are closed. -/
theorem height_end (h : (Scanner.ofSource layout source).tape.failure = none) {k : Nat}
    (hk : ∀ t, (Scanner.ofSource layout source).tape.scans[k]? = some t → t.kind = .eos) :
    height (Scanner.ofSource layout source).tape.scans k = 0 := by
  have hs := Scanner.sound_ofSource layout source
  cases ht : (Scanner.ofSource layout source).tape.scans[k]? with
  | none =>
    rw [height_of_length_le (List.getElem?_eq_none_iff.1 ht), hs.net_tape h]
    rfl
  | some t =>
    rw [hs.height_eos ht (hk t ht)]
    rfl

/-- The settled scans of a template that can be scanned are regular. -/
theorem regular_settle (h : (Scanner.ofSource layout source).tape.failure = none) :
    Regular (settle (Scanner.ofSource layout source).tape.scans) := by
  have hs := Scanner.sound_ofSource layout source
  have hkeeps := Scanner.keeps_ofSource layout source
  refine ⟨?_, ?_, ?_, ?_⟩
  · intro k t hk ht
    rw [getElem?_settle] at hk
    obtain ⟨u, hu, rfl⟩ := Option.map_eq_some_iff.1 hk
    have hkind : u.kind = .indent := ht
    rw [standing_settle]
    -- Settling turns off the indents that nothing can have as a block. The others are not
    -- verbatim, since inside a region nothing can have a block.
    cases hhosts : (standing (Scanner.ofSource layout source).tape.scans k).hosts with
    | false => simp [Scan.opens]
    | true =>
      have hverbatim := hkeeps.verbatim_tape hs hu hhosts
      simp [Scan.opens, Scan.kind, hverbatim] at hkind ⊢
      exact hkind
  · intro k t t' hk ht hk'
    rw [getElem?_settle] at hk hk'
    obtain ⟨u, hu, rfl⟩ := Option.map_eq_some_iff.1 hk
    obtain ⟨u', hu', rfl⟩ := Option.map_eq_some_iff.1 hk'
    show u'.kind ≠ .newline ∧ u'.kind ≠ .indent
    exact hkeeps.tape_outdent hs hu ht hu'
  · intro k hk q hq
    have hend : height (Scanner.ofSource layout source).tape.scans k = 0 := by
      refine height_end h fun t ht => ?_
      have hsettle := getElem?_settle (Scanner.ofSource layout source).tape.scans k
      rw [ht, Option.map_some] at hsettle
      have hkind := hk _ hsettle
      exact hkind
    -- All levels are closed at the end, and stray indents only make the rest lower.
    have hpos := height_nonneg layout source q
    have hlag := lag_le (Scanner.ofSource layout source).tape.scans hq
    rw [lag, lag] at hlag
    omega
  · intro k t hk ht
    rw [getElem?_settle] at hk
    obtain ⟨u, hu, rfl⟩ := Option.map_eq_some_iff.1 hk
    rw [settle, List.length_mapIdx]
    exact Scanner.length_tape_of_eos hu ht

end

end Brackets

end Offside
