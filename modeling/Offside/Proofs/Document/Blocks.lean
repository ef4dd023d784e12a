import Offside.Proofs.Document.Refinement
import Offside.Proofs.Token.Lines

/-!
# Blocks and levels

A block is opened by an indent and closed by an outdent, but is it the outdent that
closes the level of that indent? Reading a node takes as many outdents as it takes
indents that open blocks, so the blocks are matched like brackets among the settled
scans: those in which stray indents count for nothing.

`Cursor.Within` is what all functions of `Reading` preserve, and the theorems about them
follow the functions one by one. What a function needs to know about the lexemes in
front of it is their standing.

`blocks_close_at_match_iff` is what follows for templates: a block is closed where its
level is, unless a stray indent stands inside of it, and then it is closed too early
(`block_closed_early`).
-/

set_option autoImplicit false

namespace Offside.Reading

open Brackets Result

variable {ts : List Scan} {c₀ c : Cursor} {α : Type}

/-! ### Cursors inside a level -/

/-- A cursor in some scans that was reached from another one without leaving its level,
and so that all blocks on the way were closed. -/
structure Cursor.Within (c : Cursor) (ts : List Scan) (c₀ : Cursor) : Prop where
  rest : c.rest = (ts.drop c.place).map (·.lexeme)
  spans : ∀ s ∈ c.spans, Closes ts s.1 s.2
  grows : ∀ s ∈ c₀.spans, s ∈ c.spans
  le : c₀.place ≤ c.place
  level : height ts c.place = height ts c₀.place
  above : ∀ k, c₀.place ≤ k → k ≤ c.place → height ts c₀.place ≤ height ts k
  opened : ∀ k, c₀.place ≤ k → k < c.place → OpensAt ts k → ∃ j, (k, j) ∈ c.spans

/-- The standing of a cursor. -/
def Cursor.standing (c : Cursor) (ts : List Scan) : Standing :=
  Brackets.standing ts c.place

/-- The next lexeme is the one that was scanned at the place of the cursor. -/
theorem Cursor.next_of_rest (h : c.rest = (ts.drop c.place).map (·.lexeme)) :
    c.next = (ts[c.place]?.map (·.lexeme)).getD ⟨.eos, c.line⟩ := by
  rw [Cursor.next, h, List.headD_eq_head?_getD, List.head?_map, List.head?_drop]

namespace Cursor.Within

theorem refl (hrest : c.rest = (ts.drop c.place).map (·.lexeme))
    (hspans : ∀ s ∈ c.spans, Closes ts s.1 s.2) : c.Within ts c where
  rest := hrest
  spans := hspans
  grows := fun _ hs => hs
  le := Nat.le_refl _
  level := rfl
  above := fun _ hle hge => le_of_eq (congrArg (height ts) (Nat.le_antisymm hle hge))
  opened := fun _ hle hlt => absurd (Nat.lt_of_le_of_lt hle hlt) (Nat.lt_irrefl _)

theorem seen (h : c.Within ts c₀) : c.seen.Within ts c₀ :=
  ⟨h.rest, h.spans, h.grows, h.le, h.level, h.above, h.opened⟩

theorem trans {c₁ : Cursor} (h₁ : c₁.Within ts c) (h : c.Within ts c₀) : c₁.Within ts c₀ := by
  refine ⟨h₁.rest, h₁.spans, fun s hs => h₁.grows s (h.grows s hs), Nat.le_trans h.le h₁.le,
    h₁.level.trans h.level, ?_, ?_⟩
  · intro k hle hge
    rcases Nat.le_total k c.place with hk | hk
    · exact h.above k hle hk
    · rw [← h.level]
      exact h₁.above k hk hge
  · intro k hle hlt hopens
    rcases Nat.lt_or_ge k c.place with hk | hk
    · obtain ⟨j, hj⟩ := h.opened k hle hk hopens
      exact ⟨j, h₁.grows _ hj⟩
    · exact h₁.opened k hk hlt hopens

theorem exists_scan (h : c.Within ts c₀) (hkind : c.next.kind ≠ .eos) :
    ∃ t, ts[c.place]? = some t ∧ t.lexeme = c.next := by
  have hnext := Cursor.next_of_rest h.rest
  cases ht : ts[c.place]? with
  | none =>
    rw [ht] at hnext
    exact absurd (congrArg Lexeme.kind hnext) hkind
  | some t =>
    rw [ht] at hnext
    exact ⟨t, rfl, hnext.symm⟩

theorem exists_scan_of_kind (h : c.Within ts c₀) {kind : Token.Kind} (hkind : c.next.kind = kind)
    (heos : kind ≠ .eos) : ∃ t, ts[c.place]? = some t ∧ t.kind = kind := by
  obtain ⟨t, ht, hlexeme⟩ := h.exists_scan (hkind ▸ heos)
  exact ⟨t, ht, (congrArg Lexeme.kind hlexeme).trans hkind⟩

theorem rest_take (h : c.Within ts c₀) : c.take.rest = (ts.drop c.take.place).map (·.lexeme) := by
  show c.rest.drop 1 = (ts.drop (c.place + 1)).map (·.lexeme)
  rw [h.rest, ← List.map_drop, List.drop_drop]

/-- Taking a lexeme that neither opens nor closes a level. -/
theorem take_of_rise {t : Scan} (h : c.Within ts c₀) (ht : ts[c.place]? = some t)
    (hrise : t.rise = 0) : c.take.Within ts c₀ := by
  have hplace : c.take.place = c.place + 1 := rfl
  have hheight : height ts (c.place + 1) = height ts c.place := by
    rw [height_succ ht, hrise, Int.add_zero]
  have hlast : ∀ k, k ≤ c.place + 1 → k ≤ c.place ∨ k = c.place + 1 := by omega
  refine ⟨h.rest_take, h.spans, h.grows, Nat.le_succ_of_le h.le, ?_, ?_, ?_⟩
  · rw [hplace, hheight, h.level]
  · intro k hle hge
    rcases hlast k hge with hk | rfl
    · exact h.above k hle hk
    · rw [hheight]
      exact h.above c.place h.le (Nat.le_refl _)
  · intro k hle hlt hopens
    rcases Nat.lt_succ_iff_lt_or_eq.1 hlt with hk | rfl
    · exact h.opened k hle hk hopens
    · have hup := height_succ_of_opensAt hopens
      omega

end Cursor.Within

/-- Taking a lexeme that opens no block leads to the standing behind it. -/
theorem Cursor.Within.take (hts : Regular ts) (h : c.Within ts c₀) (hout : c.next.kind ≠ .outdent)
    (heos : c.next.kind ≠ .eos) (hindent : c.next.kind = .indent → (c.standing ts).hosts = false) :
    c.take.Within ts c₀ ∧ c.take.standing ts = (c.standing ts).after c.next.token := by
  obtain ⟨t, ht, hlexeme⟩ := h.exists_scan heos
  have hkind : t.kind = c.next.kind := congrArg Lexeme.kind hlexeme
  -- In regular scans an indent opens something only where a block can stand.
  have hopens : t.opens = false := by
    by_cases hk : t.kind = .indent
    · rw [hts.opens ht hk]
      exact hindent (hkind.symm.trans hk)
    · simp [Scan.opens, hk]
  have hcloses : t.closes = false := by simp [Scan.closes, hkind, hout]
  refine ⟨h.take_of_rise ht (by simp [Scan.rise, hopens, hcloses]), ?_⟩
  show Brackets.standing ts (c.place + 1) = _
  rw [standing_succ ht, hlexeme]
  rfl

/-- Taking a lexeme that has nothing to do with levels. -/
theorem Cursor.Within.take_flat (hts : Regular ts) (h : c.Within ts c₀) {kind : Token.Kind}
    (hkind : c.next.kind = kind) (hflat : kind.isInline = true ∨ kind = .newline) :
    c.take.Within ts c₀ ∧ c.take.standing ts = (c.standing ts).after c.next.token := by
  have hne : ∀ kind', kind'.isInline = false → kind' ≠ .newline → c.next.kind ≠ kind' := by
    intro kind' hinline hnewline heq
    rw [hkind] at heq
    subst heq
    rcases hflat with hflat | hflat
    · rw [hinline] at hflat
      cases hflat
    · exact hnewline hflat
  exact h.take hts (hne .outdent rfl nofun) (hne .eos rfl nofun)
    fun hindent => absurd hindent (hne .indent rfl nofun)

/-- A cursor whose standing does not matter any more: the next lexeme leads to the same
standing as if nothing stood in front of it. -/
structure Cursor.Free (c : Cursor) (ts : List Scan) : Prop where
  after : (c.standing ts).after c.next.token = Standing.bare.after c.next.token
  indent : c.next.kind = .indent → (c.standing ts).hosts = false

/-- A cursor behind something that can have a block, with newlines in between. -/
structure Cursor.Ready (c : Cursor) (ts : List Scan) : Prop where
  newline : c.next.kind = .newline → (c.standing ts).hosts = true ∨ c.standing ts = .text
  indent : c.next.kind = .indent → (c.standing ts).hosts = true
  free : c.next.kind ≠ .newline → c.next.kind ≠ .indent → c.Free ts

theorem Cursor.Free.of_bare (h : c.standing ts = .bare) : c.Free ts :=
  ⟨by rw [h], fun _ => by rw [h]; rfl⟩

theorem Cursor.Ready.of_host (h : c.standing ts = .host) : c.Ready ts where
  newline := fun _ => .inl (by rw [h]; rfl)
  indent := fun _ => by rw [h]; rfl
  free := fun hnewline hindent =>
    ⟨by rw [h]; exact Standing.after_host hnewline, fun heq => absurd heq hindent⟩

theorem Cursor.Ready.of_tag (h : c.standing ts = .tag) (htext : c.next.kind ≠ .text)
    (hcode : c.next.kind ≠ .code) : c.Ready ts where
  newline := fun _ => .inl (by rw [h]; rfl)
  indent := fun _ => by rw [h]; rfl
  free := fun hnewline hindent =>
    ⟨by rw [h]; exact Standing.after_tag hnewline htext hcode, fun heq => absurd heq hindent⟩

theorem Cursor.Ready.of_text (h : c.standing ts = .text)
    (hnext : c.next.kind ≠ .text ∧ c.next.kind ≠ .indent) : c.Ready ts where
  newline := fun _ => .inr h
  indent := fun heq => absurd heq hnext.2
  free := fun hnewline hindent =>
    ⟨by rw [h]; exact Standing.after_text hnewline hnext.1 hindent, fun heq => absurd heq hindent⟩

theorem Cursor.Free.seen (h : c.Free ts) : c.seen.Free ts := by
  refine ⟨?_, ?_⟩
  · rw [Cursor.next_seen]
    exact h.after
  · rw [Cursor.next_seen]
    exact h.indent

theorem Cursor.Free.take_newline (hts : Regular ts) (h : c.Within ts c₀) (hfree : c.Free ts)
    (hnewline : c.next.kind = .newline) : c.take.Within ts c₀ ∧ c.take.Free ts := by
  obtain ⟨htake, hstanding⟩ := h.take_flat hts hnewline (.inr rfl)
  rw [hfree.after] at hstanding
  exact ⟨htake, .of_bare (hstanding.trans (Standing.after_newline_eq_self hnewline (.inl rfl)))⟩

/-- In a free standing, what stands behind the first lexeme of a node depends on it alone. -/
theorem Cursor.Free.take_first (hts : Regular ts) (hfree : c.Free ts) (h : c.Within ts c₀)
    {first : Option Node} {c' : Cursor} (hreads : Reads .node c first c') :
    c.take.Within ts c₀ ∧ c.take.standing ts = Standing.bare.after c.next.token := by
  obtain ⟨heos, hout, -⟩ := hreads.ready
  rw [← hfree.after]
  exact h.take hts hout heos hfree.indent

theorem Cursor.Ready.seen (h : c.Ready ts) : c.seen.Ready ts := by
  refine ⟨?_, ?_, ?_⟩
  · rw [Cursor.next_seen]
    exact h.newline
  · rw [Cursor.next_seen]
    exact h.indent
  · rw [Cursor.next_seen]
    exact fun hnewline hindent => (h.free hnewline hindent).seen

/-! ### Opening and closing a block -/

namespace Cursor.Within

variable {c₁ : Cursor}

/-- An indent where a block can stand opens it. -/
theorem opensAt (hts : Regular ts) (h : c.Within ts c₀) (hindent : c.next.kind = .indent)
    (hhosts : (c.standing ts).hosts = true) : OpensAt ts c.place ∧ c.take.standing ts = .bare := by
  obtain ⟨t, ht, hkind⟩ := h.exists_scan_of_kind hindent nofun
  refine ⟨⟨t, ht, (hts.opens ht hkind).trans hhosts⟩, ?_⟩
  show Brackets.standing ts (c.place + 1) = _
  rw [standing_succ ht]
  exact Standing.after_indent hkind hhosts

/-- A block does not go on to the end of the template. -/
theorem kind_of_ends (hts : Regular ts) (h₁ : c₁.Within ts c.take) (hopens : OpensAt ts c.place)
    (hends : c₁.next.kind = .outdent ∨ c₁.next.kind = .eos) : c₁.next.kind = .outdent := by
  -- At the end no more is open than in front of the indent, but inside the block one more is.
  refine hends.resolve_right fun heos => ?_
  have hlast : ∀ t, ts[c₁.place]? = some t → t.kind = .eos := by
    intro t ht
    have hnext := Cursor.next_of_rest h₁.rest
    rw [ht] at hnext
    rw [← heos, hnext]
    rfl
  have hle : c.place + 1 ≤ c₁.place := h₁.le
  have hlow := hts.ends hlast c.place (Nat.le_of_succ_le hle)
  have hlevel : height ts c₁.place = height ts (c.place + 1) := h₁.level
  have hup := height_succ_of_opensAt hopens
  omega

/-- A block from its indent to the outdent at the end of its level. -/
theorem close (h : c.Within ts c₀) (hopens : OpensAt ts c.place) (h₁ : c₁.Within ts c.take)
    (hkind : c₁.next.kind = .outdent) : (c₁.close c.place).Within ts c₀ := by
  obtain ⟨t, ht, houtdent⟩ := h₁.exists_scan_of_kind hkind nofun
  have hcloses : ClosesAt ts c₁.place := ⟨t, ht, beq_iff_eq.2 houtdent⟩
  have hle : c.place + 1 ≤ c₁.place := h₁.le
  have hlevel : height ts c₁.place = height ts (c.place + 1) := h₁.level
  have hup := height_succ_of_opensAt hopens
  have hdown := height_succ_of_closesAt hcloses
  have habove : ∀ k, c.place < k → k ≤ c₁.place → height ts c.place < height ts k := by
    intro k hlt hle
    have hk : height ts (c.place + 1) ≤ height ts k := h₁.above k hlt hle
    omega
  -- The outdent comes at the level inside the indent, which was not left before.
  have hmatch : Closes ts c.place c₁.place := closes_of_first hopens hle (by omega) habove
  -- It is enough to compare the end of the block with its start.
  refine trans (c := c) ⟨h₁.rest_take, List.forall_mem_cons.2 ⟨hmatch, h₁.spans⟩,
    fun s hs => List.mem_cons_of_mem _ (h₁.grows s hs), Nat.le_trans (Nat.le_of_succ_le hle)
    (Nat.le_succ _), hmatch.back, ?_, ?_⟩ h
  · intro k hlow hhigh
    have hends : k = c.place ∨ k = c₁.place + 1 ∨ c.place < k ∧ k ≤ c₁.place := by
      have : k ≤ c₁.place + 1 := hhigh
      omega
    rcases hends with rfl | rfl | ⟨hlt, hle⟩
    · exact Int.le_refl _
    · exact Int.le_of_eq hmatch.back.symm
    · exact Int.le_of_lt (habove k hlt hle)
  · intro k hlow hhigh hk
    rcases Nat.eq_or_lt_of_le hlow with rfl | hlt
    · exact ⟨c₁.place, List.mem_cons_self⟩
    · have hne : k ≠ c₁.place := by
        -- At `c₁` the height falls, so nothing opens there.
        rintro rfl
        have := height_succ_of_opensAt hk
        omega
      have hlast : k < c₁.place := Nat.lt_of_le_of_ne (Nat.le_of_lt_succ hhigh) hne
      obtain ⟨j, hj⟩ := h₁.opened k hlt hlast hk
      exact ⟨j, List.mem_cons_of_mem _ hj⟩

theorem standing_take_of_outdent (h : c.Within ts c₀) (hkind : c.next.kind = .outdent) :
    c.take.standing ts = .bare := by
  obtain ⟨t, ht, houtdent⟩ := h.exists_scan_of_kind hkind nofun
  show Brackets.standing ts (c.place + 1) = _
  rw [standing_succ ht]
  exact Standing.after_outdent _ houtdent

/-- Behind an outdent nothing is left that could have a block. -/
theorem behind_outdent (hts : Regular ts) (h₁ : c₁.Within ts c₀) (hkind : c₁.next.kind = .outdent)
    (start : Nat) : (c₁.close start).Free ts ∧
      (c₁.close start).next.kind ≠ .newline ∧ (c₁.close start).next.kind ≠ .indent := by
  obtain ⟨t, ht, houtdent⟩ := h₁.exists_scan_of_kind hkind nofun
  refine ⟨.of_bare (h₁.standing_take_of_outdent hkind), ?_⟩
  have hnext : (c₁.close start).next = _ := Cursor.next_of_rest h₁.rest_take
  rw [hnext]
  cases ht' : ts[(c₁.close start).place]? with
  | none => exact ⟨nofun, nofun⟩
  | some t' => exact hts.outdent ht houtdent ht'

end Cursor.Within

/-! ### Runs of lexemes -/

section

variable {c' : Cursor} {taken : List Lexeme}

/-- A run stays inside its level and keeps what its lexemes keep of the standing. -/
theorem Reads.within_run (hts : Regular ts) {p : Token.Kind → Bool} (S : Standing → Prop)
    (hout : p .outdent = false) (hS : ∀ st token, S st → p token.kind = true → S (st.after token))
    (hindent : p .indent = true → ∀ st, S st → st.hosts = false)
    (hreads : Reads (.run p) c taken c') (h : c.Within ts c₀) (hst : S (c.standing ts)) :
    c'.Within ts c₀ ∧ S (c'.standing ts) := by
  induction hreads using Reads.run_induction with
  | stop hgoes hp => exact ⟨h.seen, hst⟩
  | @more c c' taken hp heos hreads ih =>
    have hne : c.next.kind ≠ .outdent := by
      intro heq
      rw [heq, hout] at hp
      cases hp
    obtain ⟨htake, hstanding⟩ := h.take hts hne heos fun hkind => hindent (hkind ▸ hp) _ hst
    refine ih htake ?_
    rw [hstanding]
    exact hS _ _ hst hp

/-- Behind newlines a line can still have a block. -/
theorem Reads.within_newlines (hts : Regular ts) (hreads : Reads (.run (· = .newline)) c taken c')
    (h : c.Within ts c₀) (hready : c.Ready ts) :
    c'.Within ts c₀ ∧ c'.Ready ts ∧ c'.next.kind ≠ .newline := by
  have hne : c'.next.kind ≠ .newline := of_decide_eq_false hreads.halts.2
  -- A newline makes a host of a tag or a text; without one, all stays as it is.
  cases hreads with
  | stop hgoes hp => exact ⟨h.seen, hready.seen, hne⟩
  | more hp heos hothers =>
    have hnewline := of_decide_eq_true hp
    obtain ⟨htake, hstanding⟩ := h.take_flat hts hnewline (.inr rfl)
    have hhost : c.take.standing ts = .host := by
      rw [hstanding]
      exact Standing.after_newline hnewline (hready.newline hnewline)
    obtain ⟨hc', hst⟩ := hothers.within_run hts (· = .host) rfl
      (fun _ _ hst hkind => Standing.after_newline (of_decide_eq_true hkind) (.inl (hst ▸ rfl)))
      (fun hindent => absurd hindent (by decide)) htake hhost
    refine ⟨hc', ⟨fun heq => absurd heq hne, fun _ => by rw [hst]; rfl, fun _ hindent => ?_⟩, hne⟩
    refine ⟨?_, fun heq => absurd heq hindent⟩
    rw [hst]
    exact Standing.after_host hne

/-- Newlines do not change a standing in which no block is expected. -/
theorem Reads.within_newlines_of_not_hosts (hts : Regular ts)
    (hreads : Reads (.run (· = .newline)) c taken c') (h : c.Within ts c₀)
    (hst : c.standing ts = .bare ∨ c.standing ts = .code) :
    c'.Within ts c₀ ∧ c'.standing ts = c.standing ts := by
  refine hreads.within_run hts (· = c.standing ts) rfl (fun _ _ heq hkind => ?_)
    (fun hindent => absurd hindent (by decide)) h rfl
  rw [heq]
  exact Standing.after_newline_eq_self (of_decide_eq_true hkind) hst

theorem Reads.within_marks (hts : Regular ts) (hreads : Reads (.run isMark) c taken c')
    (h : c.Within ts c₀) (hst : c.standing ts = .tag) :
    c'.Within ts c₀ ∧ c'.standing ts = .tag := by
  refine hreads.within_run hts (· = .tag) rfl ?_ (fun hindent => absurd hindent (by decide)) h hst
  rintro _ token rfl hmark
  cases token with
  | idName name | className name | attributes raw as => rfl
  | _ => cases hmark

theorem kind_of_isTextual {kind : Token.Kind} (h : isTextual kind = true) :
    kind = .text ∨ kind = .indent := by
  cases kind with
  | text => exact .inl rfl
  | indent => exact .inr rfl
  | _ => cases h

/-- The text of a verbatim region is taken with all indents in it. -/
theorem Reads.within_text (hts : Regular ts) {text : Text} (hreads : Reads .text c text c')
    (h : c.Within ts c₀) (hst : (c.standing ts).hosts = false) :
    c'.Within ts c₀ ∧ c'.standing ts = (c.standing ts).taking ∧
      c'.next.kind ≠ .text ∧ c'.next.kind ≠ .indent := by
  cases hreads with
  | text hkind hreads =>
    have hend := hreads.halts.2
    -- The first lexeme takes away what the standing expects, and the others change nothing more.
    cases hreads with
    | stop hgoes hp =>
      rw [Cursor.next_seen, hkind] at hp
      cases hp
    | more hp heos hreads =>
      have hkind := kind_of_isTextual hp
      have hout : c.seen.next.kind ≠ .outdent := by
        rcases hkind with hkind | hkind <;> rw [hkind] <;> exact nofun
      obtain ⟨htake, hstanding⟩ := h.seen.take hts hout heos fun _ => hst
      rw [show c.seen.standing ts = c.standing ts from rfl,
        Standing.after_of_not_hosts hst hkind] at hstanding
      obtain ⟨hc', hst'⟩ := hreads.within_run hts (· = (c.standing ts).taking) rfl
        (fun _ _ heq hkind => by
          rw [heq, Standing.after_of_not_hosts (Standing.hosts_taking _) (kind_of_isTextual hkind),
            Standing.taking_taking])
        (fun _ _ heq => by rw [heq, Standing.hosts_taking]) htake hstanding
      refine ⟨hc', hst', ?_, ?_⟩ <;> intro hkind <;> rw [hkind] at hend <;> cases hend

theorem Reads.within_filter (hts : Regular ts) {name : String} {line : Nat} {f : Filter}
    (hreads : Reads (.filter name line) c f c') (h : c.Within ts c₀)
    (hst : c.standing ts = .filter) : c'.Within ts c₀ ∧ c'.standing ts = .bare := by
  cases hreads with
  | filterList htoken hreads =>
    have hkind : c.next.kind = .attributes := by rw [Lexeme.kind, htoken]; rfl
    obtain ⟨htake, hstanding⟩ := h.take_flat hts hkind (.inl rfl)
    have hbare : c.take.standing ts = .bare := by
      rw [hstanding, htoken, hst]
      rfl
    obtain ⟨hc', hst', -⟩ := hreads.within_text hts htake (by rw [hbare]; rfl)
    exact ⟨hc', by rw [hst', hbare]; rfl⟩
  | filterText hgoes hkind hreads =>
    have hseen : c.seen.standing ts = .filter := hst
    obtain ⟨hc', hst', -⟩ := hreads.within_text hts h.seen (by rw [hseen]; rfl)
    exact ⟨hc', by rw [hst', hseen]; rfl⟩

/-- Code that takes the lines below as they are has them as text. -/
theorem Reads.within_code_of_verbatim (hts : Regular ts) {head : Statement} {x : Code}
    (hverbatim : head.verbatim = true) (hreads : Reads (.code head) c x c') (h : c.Within ts c₀)
    (hst : c.standing ts = .bare ∨ c.standing ts = .code) :
    c'.Within ts c₀ ∧ c'.standing ts = (c.standing ts).taking ∧
      c'.next.kind ≠ .text ∧ c'.next.kind ≠ .indent := by
  cases hreads with
  | codeText _ hnewlines htext =>
    obtain ⟨hc₁, hst₁⟩ := hnewlines.within_newlines_of_not_hosts hts h hst
    rw [← hst₁] at hst ⊢
    exact htext.within_text hts hc₁ (by rcases hst with hst | hst <;> rw [hst] <;> rfl)
  | codeBlock hother =>
    rw [hverbatim] at hother
    cases hother

end

/-! ### Nodes and blocks -/

/-- The standing that a phrase is read in. -/
def Phrase.Expects (ts : List Scan) : Phrase → Cursor → Prop
  | node, c | nodes, c => c.Free ts
  | tag _, c | inline, c => c.standing ts = .tag
  | code head, c => head.verbatim = false ∧ c.standing ts = .host
  | comment head, c => c.standing ts = if head.buffered then .host else .bare
  | below, c => c.Ready ts ∧ c.next.kind ≠ .newline
  | _, _ => False

/-- The standing that a phrase leaves. -/
def Phrase.Leaves (ts : List Scan) : Phrase → Cursor → Prop
  | node, c | tag _, c | comment _, c => c.Free ts
  | inline, c => c.Ready ts
  | code _, c | below, c => c.Free ts ∧ c.next.kind ≠ .newline ∧ c.next.kind ≠ .indent
  | _, _ => True

/-- A node is read without leaving its level, and so are its parts and nodes in a row. -/
theorem Reads.within (hts : Regular ts) {p : Phrase} {c c' : Cursor} {a : p.Value}
    (hreads : Reads p c a c') {c₀ : Cursor} (h : c.Within ts c₀) (hexpects : p.Expects ts c) :
    c'.Within ts c₀ ∧ p.Leaves ts c' := by
  induction hreads generalizing c₀ with
  -- A node is free, so its first lexeme alone decides what is expected behind it.
  | element htoken hreads ih =>
    obtain ⟨htake, hstanding⟩ := hexpects.take_first hts h (.element htoken hreads)
    rw [htoken] at hstanding
    exact ih htake hstanding
  | @shorthand c c' t hkind hreads ih =>
    obtain ⟨htake, hstanding⟩ := hexpects.take_first hts h (.shorthand hkind hreads)
    refine ih htake (hstanding.trans ?_)
    unfold Lexeme.kind at hkind
    cases htoken : c.next.token <;> rw [htoken] at hkind <;> first | rfl | cases hkind
  | doctype htoken =>
    obtain ⟨htake, hstanding⟩ := hexpects.take_first hts h (.doctype htoken)
    exact ⟨htake, .of_bare (by rw [hstanding, htoken]; rfl)⟩
  | words htoken =>
    obtain ⟨htake, hstanding⟩ := hexpects.take_first hts h (.words htoken)
    exact ⟨htake, .of_bare (by rw [hstanding, htoken]; rfl)⟩
  | indent htoken =>
    obtain ⟨htake, hstanding⟩ := hexpects.take_first hts h (.indent htoken)
    exact ⟨htake, .of_bare (by rw [hstanding, htoken]; rfl)⟩
  | filter htoken hreads =>
    obtain ⟨htake, hstanding⟩ := hexpects.take_first hts h (.filter htoken hreads)
    obtain ⟨hc', hst⟩ := hreads.within_filter hts htake (by rw [hstanding, htoken]; rfl)
    exact ⟨hc', .of_bare hst⟩
  | pipe htoken hreads =>
    obtain ⟨htake, hstanding⟩ := hexpects.take_first hts h (.pipe htoken hreads)
    rw [htoken] at hstanding
    obtain ⟨hc', hst, -⟩ := hreads.within_text hts htake (by rw [hstanding]; rfl)
    exact ⟨hc', .of_bare (by rw [hst, hstanding]; rfl)⟩
  | comment htoken hreads ih =>
    obtain ⟨htake, hstanding⟩ := hexpects.take_first hts h (.comment htoken hreads)
    rw [htoken] at hstanding
    exact ih htake hstanding
  | @code c c' expression buffered x htoken hreads ih =>
    obtain ⟨htake, hstanding⟩ := hexpects.take_first hts h (.code htoken hreads)
    rw [htoken, Standing.after] at hstanding
    -- Code that takes the lines below as they are has no block of its own.
    cases hopens : (Token.code expression buffered).opensVerbatim with
    | true =>
      replace hstanding : c.take.standing ts = .bare := by
        rw [hstanding, if_pos hopens]
        rfl
      obtain ⟨hc', hst, -⟩ := hreads.within_code_of_verbatim hts hopens htake (.inl hstanding)
      exact ⟨hc', .of_bare (by rw [hst, hstanding]; rfl)⟩
    | false =>
      rw [if_neg (by simp [hopens])] at hstanding
      obtain ⟨hc', hfree, -⟩ := ih htake ⟨hopens, hstanding⟩
      exact ⟨hc', hfree⟩
  | tag hmarks _ hnewlines _ _ ihinline _ ihbelow =>
    obtain ⟨hc₁, hst₁⟩ := hmarks.within_marks hts h hexpects
    obtain ⟨hc₂, hready⟩ := ihinline hc₁ hst₁
    obtain ⟨hc₃, hready, hnewline⟩ := hnewlines.within_newlines hts hc₂ hready
    obtain ⟨hc', hfree, -⟩ := ihbelow hc₃ ⟨hready, hnewline⟩
    exact ⟨hc', hfree⟩
  -- What stands on the line of a tag leaves the tag ready for a block.
  | @inlineText c value htoken =>
    have hkind : c.next.kind = .text := by rw [Lexeme.kind, htoken]; rfl
    obtain ⟨htake, hstanding⟩ := h.take_flat hts hkind (.inl rfl)
    rw [show c.standing ts = .tag from hexpects, htoken] at hstanding
    exact ⟨htake, Cursor.Ready.of_host hstanding⟩
  | @inlineCode c c' expression buffered x htoken hreads ih =>
    have hkind : c.next.kind = .code := by rw [Lexeme.kind, htoken]; rfl
    obtain ⟨htake, hstanding⟩ := h.take_flat hts hkind (.inl rfl)
    rw [show c.standing ts = .tag from hexpects, htoken, Standing.after] at hstanding
    -- Behind the lines that such code takes, the tag can still have a block.
    cases hopens : (Token.code expression buffered).opensVerbatim with
    | true =>
      rw [if_pos hopens, if_pos rfl] at hstanding
      obtain ⟨hc', hst, hnext⟩ := hreads.within_code_of_verbatim hts hopens htake (.inr hstanding)
      exact ⟨hc', .of_text (by rw [hst, hstanding]; rfl) hnext⟩
    | false =>
      rw [if_neg (by simp [hopens])] at hstanding
      obtain ⟨hc', hfree, hnewline, hindent⟩ := ih htake ⟨hopens, hstanding⟩
      exact ⟨hc', fun heq => absurd heq hnewline, fun heq => absurd heq hindent, fun _ _ => hfree⟩
  | inlineNone htext hcode => exact ⟨h, .of_tag hexpects htext hcode⟩
  | codeText hverbatim =>
    rw [hexpects.1] at hverbatim
    cases hverbatim
  | codeBlock _ hnewlines _ _ ih =>
    obtain ⟨hc₁, hready, hnewline⟩ := hnewlines.within_newlines hts h (.of_host hexpects.2)
    exact ih hc₁ ⟨hready, hnewline⟩
  | commentBlock hbuffered hnewlines _ _ ih =>
    simp only [Phrase.Expects, hbuffered, if_true] at hexpects
    obtain ⟨hc₁, hready, hnewline⟩ := hnewlines.within_newlines hts h (.of_host hexpects)
    obtain ⟨hc', hfree, -⟩ := ih hc₁ ⟨hready, hnewline⟩
    exact ⟨hc', hfree⟩
  | commentText hbuffered hnewlines _ htext =>
    simp only [Phrase.Expects, hbuffered, Bool.false_eq_true, if_false] at hexpects
    obtain ⟨hc₁, hst₁⟩ := hnewlines.within_newlines_of_not_hosts hts h (.inl hexpects)
    rw [hexpects] at hst₁
    obtain ⟨hc', hst, -⟩ := htext.within_text hts hc₁ (by rw [hst₁]; rfl)
    exact ⟨hc', .of_bare (by rw [hst, hst₁]; rfl)⟩
  | commentNone hbuffered hnewlines =>
    simp only [Phrase.Expects, hbuffered, Bool.false_eq_true, if_false] at hexpects
    obtain ⟨hc', hst⟩ := hnewlines.within_newlines_of_not_hosts hts h (.inl hexpects)
    exact ⟨hc', .of_bare (hst.trans hexpects)⟩
  | @block c c₁ children hkind hreads ih =>
    obtain ⟨hready, -⟩ := hexpects
    obtain ⟨hopens, hstanding⟩ := h.opensAt hts hkind (hready.indent hkind)
    -- The nodes are read inside the level of the indent, so they start from a cursor of their
    -- own; what they leave is compared with the block's start by `close`.
    obtain ⟨hc₁, -⟩ := ih (.refl h.rest_take h.spans) (.of_bare hstanding)
    have hout := hc₁.kind_of_ends hts hopens hreads.halts.2
    exact ⟨h.close hopens hc₁ hout, hc₁.behind_outdent hts hout c.place⟩
  | noBlock hkind =>
    obtain ⟨hready, hnewline⟩ := hexpects
    exact ⟨h, hready.free hnewline hkind, hnewline, hkind⟩
  | nil => exact ⟨h.seen, trivial⟩
  | newline hkind _ ih =>
    obtain ⟨htake, hfree⟩ := hexpects.take_newline hts h hkind
    exact ih htake hfree
  | cons _ _ ihfirst ihothers =>
    obtain ⟨hc₁, hfree⟩ := ihfirst h.seen hexpects.seen
    exact ihothers hc₁ hfree
  | stop | more | text | filterList | filterText | document | outdent => exact hexpects.elim

/-! ### Documents -/

/-- A cursor in some scans such that all blocks opened in front of it were closed. On the
outermost level an outdent closes nothing, so it is not reached without leaving levels. -/
structure Cursor.Outer (c : Cursor) (ts : List Scan) : Prop where
  rest : c.rest = (ts.drop c.place).map (·.lexeme)
  spans : ∀ s ∈ c.spans, Closes ts s.1 s.2
  opened : ∀ k < c.place, OpensAt ts k → ∃ j, (k, j) ∈ c.spans

namespace Cursor.Outer

theorem within (h : c.Outer ts) : c.Within ts c :=
  .refl h.rest h.spans

theorem of_within (h : c.Outer ts) {c' : Cursor} (hc' : c'.Within ts c) : c'.Outer ts := by
  refine ⟨hc'.rest, hc'.spans, fun k hk hopens => ?_⟩
  rcases Nat.lt_or_ge k c.place with hlt | hge
  · obtain ⟨j, hj⟩ := h.opened k hlt hopens
    exact ⟨j, hc'.grows _ hj⟩
  · exact hc'.opened k hge hk hopens

/-- An outdent that closes no block. -/
theorem take_of_outdent (h : c.Outer ts) (hkind : c.next.kind = .outdent) :
    c.take.Outer ts ∧ c.take.standing ts = .bare := by
  obtain ⟨t, ht, houtdent⟩ := h.within.exists_scan_of_kind hkind nofun
  refine ⟨⟨h.within.rest_take, h.spans, ?_⟩, h.within.standing_take_of_outdent hkind⟩
  intro k hk hopens
  rcases Nat.lt_succ_iff_lt_or_eq.1 hk with hlt | rfl
  · exact h.opened k hlt hopens
  · obtain ⟨t', ht', hopens⟩ := hopens
    obtain rfl := Option.some.inj (ht.symm.trans ht')
    simp [Scan.opens, houtdent] at hopens

/-- At the end of the template all blocks were closed. -/
theorem exists_span (hts : Regular ts) (h : c.Outer ts) (heos : c.next.kind = .eos) {k : Nat}
    (hopens : OpensAt ts k) : ∃ j, (k, j) ∈ c.spans := by
  rcases Nat.lt_or_ge k c.place with hlt | hge
  · exact h.opened k hlt hopens
  · obtain ⟨t, hk, ht⟩ := hopens
    have hlen : k < ts.length := (List.getElem?_eq_some_iff.1 hk).1
    obtain ⟨t', hplace⟩ : ∃ t', ts[c.place]? = some t' :=
      ⟨_, List.getElem?_eq_getElem (Nat.lt_of_le_of_lt hge hlen)⟩
    have hnext := Cursor.next_of_rest h.rest
    rw [hplace] at hnext
    have hkind : t'.kind = .eos := (congrArg Lexeme.kind hnext).symm.trans heos
    -- Nothing comes behind the end of the template.
    have hlast := hts.last hplace hkind
    obtain rfl : k = c.place := by omega
    obtain rfl := Option.some.inj (hplace.symm.trans hk)
    simp [Scan.opens, hkind] at ht

end Cursor.Outer

/-- In a document all blocks are closed by the brackets that match those they are opened
by. -/
theorem Reads.outer (hts : Regular ts) {c c' : Cursor} {ns : List Node}
    (hreads : Reads .document c ns c') (h : c.Outer ts) (hfree : c.Free ts) : c'.Outer ts := by
  induction hreads using Reads.document_induction with
  | document hnodes hkind => exact h.of_within (hnodes.within hts h.within hfree).1
  | outdent hnodes hkind hothers ih =>
    -- An outdent that no block waits for is passed over, and the level is left.
    have hc₁ := h.of_within (hnodes.within hts h.within hfree).1
    obtain ⟨htake, hbare⟩ := hc₁.take_of_outdent (hnodes.halts.2.resolve_right hkind)
    exact ih htake (.of_bare hbare)

end Offside.Reading

namespace Offside

open Brackets Reading

variable {layout : Layout} {source : String} {root : Block}

/-- A template with a document is scanned to its end, and its document is read from all
that was scanned. -/
theorem gives_of_parse (h : parse layout source = .ok root) :
    (Scanner.ofSource layout source).tape.failure = none ∧
      ∃ c, (document { rest := (Scanner.ofSource layout source).tape.lexemes }).Gives
        root.children c := by
  obtain ⟨ls, hls⟩ := tokenize_of_parse h
  have hread := parse_eq_ofLexemes hls
  rw [h] at hread
  rw [tokenize_eq_tape, Tape.result_eq_ok_iff] at hls
  obtain ⟨hfailure, rfl⟩ := hls
  refine ⟨hfailure, ?_⟩
  unfold Reading.ofLexemes Reading.read at hread
  split at hread
  · next children c hgives =>
    obtain rfl := Except.ok.inj hread
    exact ⟨c, hgives⟩
  · cases hread

/-- The blocks of a document are the brackets among the settled scans of its template. -/
theorem exists_spans (h : parse layout source = .ok root) :
    let ts := settle (Scanner.ofSource layout source).tape.scans
    ∃ c, (document { rest := (Scanner.ofSource layout source).tape.lexemes }).Gives
        root.children c ∧
      (∀ i, OpensAt ts i → ∃ j, (i, j) ∈ c.spans) ∧
      ∀ i j, (i, j) ∈ c.spans → Closes ts i j := by
  intro ts
  obtain ⟨hfailure, c, hgives⟩ := gives_of_parse h
  have hts : Regular ts := regular_settle hfailure
  have hstart : Cursor.Outer { rest := (Scanner.ofSource layout source).tape.lexemes } ts :=
    ⟨(map_lexeme_settle _).symm, nofun, nofun⟩
  have hreads : Reads .document _ root.children c := .of_gives trivial hgives
  have houter := hreads.outer hts hstart (.of_bare rfl)
  exact ⟨c, hgives, fun i hi => houter.exists_span hts hreads.halts.2 hi,
    fun i j hij => houter.spans _ hij⟩

/-- Where blocks are closed, for every template that has a document.

Blocks are opened by those indents that open levels and are not stray, and by no others.
A block is closed by the outdent that matches its indent when stray indents are not
counted. This is not behind the outdent that closes the level of the indent, and it is
that outdent if and only if no stray indent stands between the two. The level itself
goes on as long as the lines are deeper than the one it belongs to. Stray indents stand
below document types and below text only. -/
theorem blocks_close_at_match_iff (h : parse layout source = .ok root) :
    let s := Scanner.ofSource layout source
    let ts := s.tape.scans
    ∃ c, (document { rest := s.tape.lexemes }).Gives root.children c ∧
      (∀ i, (∃ j, (i, j) ∈ c.spans) ↔ OpensAt ts i ∧ ¬Stray ts i) ∧
      (∀ i j, (i, j) ∈ c.spans → Closes (settle ts) i j ∧
        ∃ m, Closes ts i m ∧ s.Encloses i m ∧ j ≤ m ∧
          (j = m ↔ ∀ k, i < k → k < m → ¬Stray ts k)) ∧
      ∀ k, Stray ts k → lastKind ts k = some .doctype ∨ lastKind ts k = some .text := by
  intro s ts
  have hs : s.Sound := Scanner.sound_ofSource layout source
  have hnet : net ts = 0 := hs.net_tape (gives_of_parse h).1
  obtain ⟨c, hgives, hopened, hclosed⟩ := exists_spans h
  refine ⟨c, hgives, fun i => ⟨?_, ?_⟩, ?_, fun k hk => hk.lastKind⟩
  · rintro ⟨j, hij⟩
    exact opensAt_settle.1 (hclosed i j hij).opens
  · intro hi
    exact hopened i (opensAt_settle.2 hi)
  · intro i j hij
    have hj := hclosed i j hij
    obtain ⟨m, hm, -⟩ := existsUnique_closes_of_opens hnet (height_nonneg layout source)
      (opensAt_settle.1 hj.opens).1
    have hlined : (Scanner.ofSource layout source).Lined 0 :=
    ⟨Nat.le_refl _, fun _ _ => rfl, fun h => absurd rfl h⟩
    exact ⟨hj, m, hm, Scanner.encloses_of_closes hs hlined hm, closes_settle hj hm⟩

/-- A block with a deeper line below a line of markup, and a block inside of that. -/
theorem blocks_close_at_match_iff_markup :
    ∃ root, parse {} "p\n  <b>\n    q\n      s\n  r" = .ok root ∧
      let ts := (Scanner.ofSource {} "p\n  <b>\n    q\n      s\n  r").tape.scans
      ∃ c, (document { rest := ts.map (·.lexeme) }).Gives root.children c ∧
        ∀ i j, (i, j) ∈ c.spans →
          ∃ m, Closes ts i m ∧ (j = m ↔ ∀ k, i < k → k < m → ¬Stray ts k) := by
  have hchildren : (parse {} "p\n  <b>\n    q\n      s\n  r").map (·.children.length) = .ok 2 := by
    decide +kernel
  cases hroot : parse {} "p\n  <b>\n    q\n      s\n  r" with
  | error e =>
    rw [hroot] at hchildren
    cases hchildren
  | ok root =>
    obtain ⟨c, hgives, -, hspans, -⟩ := blocks_close_at_match_iff hroot
    refine ⟨root, rfl, c, hgives, fun i j hij => ?_⟩
    obtain ⟨-, m, hm, -, -, hiff⟩ := hspans i j hij
    exact ⟨m, hm, hiff⟩

/-- The line `q` is deeper than the markup above it, and the outdent behind it closes the
block of `p`, although the line `r` belongs to it. -/
theorem block_closed_early :
    let source := "p\n  <b>\n    q\n  r"
    let ts := (Scanner.ofSource {} source).tape.scans
    ∃ root c, parse {} source = .ok root ∧ root.children.length = 2 ∧
      (document { rest := ts.map (·.lexeme) }).Gives root.children c ∧
      (1, 5) ∈ c.spans ∧ Closes ts 1 7 ∧ ¬Closes ts 1 5 := by
  intro source ts
  have hchildren : (parse {} source).map (·.children.length) = .ok 2 := by decide +kernel
  have hclose : Closes (settle ts) 1 5 ∧ Closes ts 1 7 ∧ ¬Closes ts 1 5 := by decide +kernel
  cases hroot : parse {} source with
  | error e =>
    rw [hroot] at hchildren
    cases hchildren
  | ok root =>
    obtain ⟨c, hgives, hopened, hclosed⟩ := exists_spans hroot
    obtain ⟨j, hj⟩ := hopened 1 hclose.1.opens
    obtain rfl := (hclosed 1 j hj).right_unique hclose.1
    rw [hroot] at hchildren
    exact ⟨root, c, rfl, Except.ok.inj hchildren, hgives, hj, hclose.2⟩

end Offside
