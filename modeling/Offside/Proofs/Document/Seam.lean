import Offside.Proofs.Document.Ending
import Offside.Proofs.Document.Shown
import Offside.Proofs.Token.Seam

/-!
# Documents below each other

The lexemes of two templates that stand below each other are those of the first one,
continued with those of the second one (`Continues`). Reading them is compared with
reading the first template alone. The two cursors move side by side up to the seam
(`Cursor.Before`), and behind it the first one waits at the end of its template
(`Cursor.Behind`) while the second one stands where a document starts.

Whatever is read of the first template without taking its end is read in both readings
(`Reads.repeats`), and that end is never taken. So the document of both templates is that of
the first one, followed by that of the second one, apart from the lines
(`gives_document_below`).
-/

set_option autoImplicit false

namespace Offside.Reading

variable {next : List Lexeme} {c c' d : Cursor}

/-! ### Cursors side by side -/

/-- Lexemes that cannot belong to anything in front of them. -/
def Fresh (next : List Lexeme) : Prop :=
  ∃ l ls, next = l :: ls ∧ l.kind ≠ .newline ∧ l.kind ≠ .text ∧ l.kind ≠ .indent

/-- Two cursors in front of the seam. -/
def Cursor.Before (next : List Lexeme) (c d : Cursor) : Prop :=
  Continues next c.rest d.rest

/-- Two cursors behind the seam: one at the end of the first template, the other one at the
start of what follows. -/
structure Cursor.Behind (next : List Lexeme) (c d : Cursor) : Prop where
  ended : ∃ e, c.rest = [e] ∧ e.kind = .eos
  rest : d.rest = next

/-- Two cursors on the same side of the seam. -/
def Cursor.Beside (next : List Lexeme) (c d : Cursor) : Prop :=
  c.Before next d ∨ c.Behind next d

/-- What cursors in front of the seam can look at. -/
inductive Cursor.Turn (next : List Lexeme) (c d : Cursor) : Prop
  | inside (htoken : d.next.token = c.next.token) (heos : c.next.kind ≠ .eos)
      (h : c.take.Before next d.take)
  | outdent (htoken : d.next.token = c.next.token) (hc : c.next.kind = .outdent)
      (h : c.take.Behind next d.take)
  | newline (hc : c.next.kind = .eos) (hd : d.next.kind = .newline) (h : c.Behind next d.take)
  | eos (hc : c.next.kind = .eos) (hd : d.next.kind = .eos) (h : c.Behind next d)

theorem Cursor.Before.turn (h : Cursor.Before next c d) : Cursor.Turn next c d := by
  obtain ⟨rest, failure, line, place, spans⟩ := c
  obtain ⟨rest', failure', line', place', spans'⟩ := d
  unfold Cursor.Before at h
  dsimp only at h
  cases h with
  | eos e e' he he' hnext => exact .eos he he' ⟨⟨e, rfl, he⟩, hnext.symm⟩
  | newline e l he hl => exact .newline he hl ⟨⟨e, rfl, he⟩, rfl⟩
  | outdent o e o' ho he ho' => exact .outdent ho' ho ⟨⟨e, rfl, he⟩, rfl⟩
  | cons hl hne h => exact .inside hl hne h

namespace Cursor

theorem goes_of_rest {l : Lexeme} {ls : List Lexeme} (h : c.rest = l :: ls) : c.Goes := by
  intro hnil
  rw [h] at hnil
  cases hnil

theorem Before.goes (h : c.Before next d) : c.Goes ∧ d.Goes := by
  unfold Before at h
  generalize hc : c.rest = ls at h
  generalize hd : d.rest = ls' at h
  cases h <;> exact ⟨goes_of_rest hc, goes_of_rest hd⟩

theorem Behind.kind (h : c.Behind next d) : c.next.kind = .eos := by
  obtain ⟨e, hrest, he⟩ := h.ended
  rw [Cursor.next, hrest]
  exact he

/-- In front of the seam, a lexeme that neither ends nor closes anything is taken by both. -/
theorem Before.inside (h : c.Before next d) (hne : c.next.kind ≠ .eos ∧ c.next.kind ≠ .outdent) :
    d.next.token = c.next.token ∧ c.take.Before next d.take := by
  cases h.turn with
  | inside htoken _ h => exact ⟨htoken, h⟩
  | outdent _ hc _ => exact absurd hc hne.2
  | newline hc _ _ | eos hc _ _ => exact absurd hc hne.1

/-- The lexeme that a node starts with is taken by both. -/
theorem Before.first (h : c.Before next d) {first : Option Node} {c' : Cursor}
    (hreads : Reads .node c first c') : d.next.token = c.next.token ∧ c.take.Before next d.take :=
  h.inside ⟨hreads.ready.1, hreads.ready.2.1⟩

/-- In front of the seam, the kinds of the next lexemes differ in ends and newlines only. -/
theorem Before.kind_iff (h : c.Before next d) {p : Token.Kind → Bool}
    (hp : p .newline = p .eos) : p d.next.kind = p c.next.kind := by
  cases h.turn with
  | inside htoken _ _ | outdent htoken _ _ => rw [Lexeme.kind, htoken, Lexeme.kind]
  | newline hc hd _ => rw [hc, hd, hp]
  | eos hc hd _ => rw [hc, hd]

section

variable (hnext : Fresh next)

include hnext

theorem Behind.goes (h : c.Behind next d) : c.Goes ∧ d.Goes := by
  obtain ⟨e, hrest, -⟩ := h.ended
  obtain ⟨l, ls, hls, -⟩ := hnext
  exact ⟨goes_of_rest hrest, goes_of_rest (h.rest.trans hls)⟩

theorem Beside.goes (h : c.Beside next d) : c.Goes ∧ d.Goes :=
  h.elim Before.goes (Behind.goes hnext)

theorem Behind.fresh (h : c.Behind next d) :
    d.next.kind ≠ .newline ∧ d.next.kind ≠ .text ∧ d.next.kind ≠ .indent := by
  obtain ⟨l, ls, hls, hl⟩ := hnext
  have hd : d.next = l := by rw [Cursor.next, h.rest, hls]; rfl
  rwa [hd]

/-- A text or an indent comes next in both readings or in none. -/
theorem Beside.kind_iff (h : c.Beside next d) {kind : Token.Kind}
    (hkind : kind = .text ∨ kind = .indent) : d.next.kind = kind ↔ c.next.kind = kind := by
  rcases h with h | h
  · have hiff := h.kind_iff (p := (· = kind)) (by rcases hkind with rfl | rfl <;> rfl)
    simpa using hiff
  · have hfresh := h.fresh hnext
    have hc : c.next.kind ≠ kind := by
      rw [h.kind]
      rcases hkind with rfl | rfl <;> nofun
    have hd : d.next.kind ≠ kind := by
      rcases hkind with rfl | rfl
      · exact hfresh.2.1
      · exact hfresh.2.2
    exact iff_of_false hd hc

end

end Cursor

/-! ### Runs of lexemes -/

theorem Cursor.Beside.seen (h : c.Beside next d) : c.seen.Beside next d.seen :=
  h.imp id fun h => ⟨h.ended, h.rest⟩

theorem Cursor.Beside.before_of_ne (h : c.Beside next d) (heos : c.next.kind ≠ .eos) :
    c.Before next d :=
  h.resolve_right fun hbehind => heos hbehind.kind

/-- Where the first template ends, the second cursor is at the next one, or a newline in front
of it. -/
theorem Cursor.Beside.ended (h : c.Beside next d) (heos : c.next.kind = .eos) :
    c.Behind next d ∨ d.next.kind = .newline ∧ c.Behind next d.take := by
  rcases h with h | h
  · cases h.turn with
    | inside _ hne => exact absurd heos hne
    | outdent _ hout => exact absurd (heos.symm.trans hout) nofun
    | newline _ hd hbehind => exact .inr ⟨hd, hbehind⟩
    | eos _ _ hbehind => exact .inl hbehind
  · exact .inl h

/-- An outdent is taken by both. The seam may be behind it. -/
theorem Cursor.Before.outdent (h : c.Before next d) (hout : c.next.kind = .outdent) :
    d.next.token = c.next.token ∧ c.take.Beside next d.take := by
  cases h.turn with
  | inside htoken _ htake => exact ⟨htoken, .inl htake⟩
  | outdent htoken _ hbehind => exact ⟨htoken, .inr hbehind⟩
  | newline hc | eos hc => exact absurd (hc.symm.trans hout) nofun

/-- A run that ends in front of newlines, outdents and the end is the same in both
readings. -/
theorem Reads.before_run {p : Token.Kind → Bool} (hnewline : p .newline = false)
    (hout : p .outdent = false) (heos : p .eos = false) {taken : List Lexeme}
    (hreads : Reads (.run p) c taken c') (h : c.Before next d) :
    ∃ taken' d', Reads (.run p) d taken' d' ∧ taken'.map (·.token) = taken.map (·.token) ∧
      c'.Before next d' := by
  induction hreads using Reads.run_induction generalizing d with
  | stop hgoes hp =>
    have hkind := h.kind_iff (hnewline.trans heos.symm)
    exact ⟨[], d.seen, .stop h.goes.2 (hkind.trans hp), rfl, h⟩
  | @more c c' taken hp hne hreads ih =>
    have hne' : c.next.kind ≠ .outdent := by
      intro heq
      rw [heq, hout] at hp
      cases hp
    obtain ⟨htoken, htake⟩ := h.inside ⟨hne, hne'⟩
    have hkind : d.next.kind = c.next.kind := congrArg Token.kind htoken
    obtain ⟨taken', d', hd', htokens, h'⟩ := ih htake
    refine ⟨d.next :: taken', d', .more (by rwa [hkind]) (by rwa [hkind]) hd', ?_, h'⟩
    rw [List.map_cons, List.map_cons, htoken, htokens]

/-- Newlines are skipped on the same side of the seam, or the first newline behind it. -/
theorem Reads.beside_newlines (hnext : Fresh next) {taken : List Lexeme}
    (hreads : Reads (.run (· = .newline)) c taken c') (h : c.Beside next d) :
    ∃ taken' d', Reads (.run (· = .newline)) d taken' d' ∧ c'.Beside next d' := by
  induction hreads using Reads.run_induction generalizing d with
  | @stop c hgoes hp =>
    have hstay : d.next.kind ≠ .newline →
        ∃ taken' d', Reads (.run (· = .newline)) d taken' d' ∧ c.seen.Beside next d' :=
      fun hd => ⟨[], d.seen, .stop (h.goes hnext).2 (decide_eq_false hd), h.seen⟩
    rcases h with h | h
    · cases h.turn with
      | inside htoken | outdent htoken =>
        refine hstay ?_
        rw [Lexeme.kind, htoken]
        exact of_decide_eq_false hp
      | newline hc hd hbehind =>
        -- Only the second reading has a newline here, and it is the last one.
        have hlast := decide_eq_false (hbehind.fresh hnext).1
        exact ⟨[d.next], d.take.seen, .more (decide_eq_true hd) (by rw [hd]; nofun)
          (.stop (hbehind.goes hnext).2 hlast), Cursor.Beside.seen (.inr hbehind)⟩
      | eos hc hd => exact hstay (by rw [hd]; nofun)
    · exact hstay (h.fresh hnext).1
  | @more c c' taken hp heos hreads ih =>
    have hnewline : c.next.kind = .newline := of_decide_eq_true hp
    rcases h with h | h
    · obtain ⟨htoken, htake⟩ := h.inside (by rw [hnewline]; decide)
      have hkind : d.next.kind = c.next.kind := congrArg Token.kind htoken
      obtain ⟨taken', d', hd', h'⟩ := ih (.inl htake)
      exact ⟨d.next :: taken', d', .more (by rwa [hkind]) (by rwa [hkind]) hd', h'⟩
    · exact absurd h.kind heos

/-- Texts are the same in both readings. None is read where the first template ends. -/
theorem Reads.beside_text {text : Text} (hreads : Reads .text c text c') (h : c.Beside next d) :
    ∃ text' d', Reads .text d text' d' ∧ text'.unlined = text.unlined ∧ c'.Before next d' := by
  cases hreads with
  | text hkind hreads =>
    have hbefore := h.before_of_ne fun heos => by simp [heos, isTextual] at hkind
    have hkind' := (hbefore.kind_iff (p := isTextual) rfl).trans hkind
    have hseen : c.seen.Before next d.seen := hbefore
    obtain ⟨taken', d', hd', htokens, h'⟩ := hreads.before_run rfl rfl rfl hseen
    exact ⟨_, d', .text hkind' hd', foldl_eq_of_tokens unlined_addTo htokens rfl, h'⟩

theorem Reads.before_filter {name : String} {line : Nat} (line' : Nat) {f : Filter}
    (hreads : Reads (.filter name line) c f c') (h : c.Before next d) :
    ∃ f' d', Reads (.filter name line') d f' d' ∧ f'.shown = f.shown ∧ c'.Before next d' := by
  cases hreads with
  | filterList htoken hreads =>
    have hkind : c.next.kind = .attributes := congrArg Token.kind htoken
    obtain ⟨htoken', htake⟩ := h.inside (by rw [hkind]; decide)
    obtain ⟨text', d', hd', htext, h'⟩ := hreads.beside_text (.inl htake)
    exact ⟨_, d', .filterList (htoken'.trans htoken) hd',
      Filter.shown_eq_of_text htext _ _ _ _, h'⟩
  | filterText hgoes hkind hreads =>
    have hkind' : d.next.kind ≠ .attributes := by
      simpa using (h.kind_iff (p := (· = .attributes)) rfl).trans (decide_eq_false hkind)
    have hseen : c.seen.Beside next d.seen := .inl h
    obtain ⟨text', d', hd', htext, h'⟩ := hreads.beside_text hseen
    exact ⟨_, d', .filterText h.goes.2 hkind' hd', Filter.shown_eq_of_text htext _ _ _ _, h'⟩

/-! ### Nodes and blocks -/

/-- Tags show the same if their parts do. Both have an empty line more if text is below. -/
theorem shown_eq_of_parts {e e' : Element} {text text' : Option Text} {code code' : Option Code}
    {block block' : Option Block} {p p' : Prop} [Decidable p] [Decidable p']
    (he : e'.unlined = e.unlined) (htext : text'.map Text.unlined = text.map Text.unlined)
    (hcode : code'.map Code.shown = code.map Code.shown)
    (hblock : block'.map Block.shown = block.map Block.shown) (hp : p' ↔ p) (line line' : Nat) :
    (Tag.mk e' (if p' then some ((text'.getD { line := line' }).addLine "") else text') code'
        (block'.getD ⟨e'.line, []⟩)).shown =
      (Tag.mk e (if p then some ((text.getD { line }).addLine "") else text) code
        (block.getD ⟨e.line, []⟩)).shown := by
  have hadd : ∀ t : Text, (t.addLine "").unlined = t.unlined.addLine "" := fun _ => rfl
  have hchildren : (block'.getD ⟨e'.line, []⟩).shown = (block.getD ⟨e.line, []⟩).shown := by
    cases block <;> cases block' <;> simp_all [Block.shown_mk]
  rw [Tag.shown_mk, Tag.shown_mk, he, hcode, hchildren, if_congr hp rfl rfl]
  split
  · cases text <;> cases text' <;> simp_all [Text.unlined]
  · rw [htext]

theorem map_toList_eq {α β : Type} {view : α → β} {o o' : Option α}
    (h : o'.map view = o.map view) : o'.toList.map view = o.toList.map view := by
  rw [← Option.toList_map, ← Option.toList_map, h]

/-- A phrase is read at the second cursor as well, with a value that looks the same, and the
cursors behind it are related again. -/
def Phrase.Copies {β : Type} (p : Phrase) (view : p.Value → β) (S : Cursor → Cursor → Prop)
    (d : Cursor) (a : p.Value) (c' : Cursor) : Prop :=
  ∃ a' d', Reads p d a' d' ∧ view a' = view a ∧ S c' d'

/-- The nodes or the document at the second cursor start with some nodes, apart from their lines,
and go on with those where the first template ends. -/
def Cursor.Opens (next : List Lexeme) (reads : Cursor → List Node → Cursor → Prop)
    (ns : List Node) (d : Cursor) : Prop :=
  ∃ ns' d', ns'.map Node.shown = ns.map Node.shown ∧ d'.rest = next ∧
    ∀ others d'', reads d' others d'' → reads d (ns' ++ others) d''

/-- What is read at the first cursor is read at the second one, apart from the lines. Nodes end at
an outdent in both readings, or they go on where the first template ends. -/
def Phrase.Repeats (next : List Lexeme) : (p : Phrase) → Cursor → p.Value → Cursor → Prop
  | node, c, n, c' => ∀ d, c.Before next d →
    node.Copies (Option.map Node.shown) (Cursor.Beside next) d n c'
  | tag e, c, t, c' => ∀ e' d, e'.unlined = e.unlined → c.Before next d →
    (tag e').Copies Tag.shown (Cursor.Beside next) d t c'
  | inline, c, x, c' => ∀ d, c.Before next d →
    inline.Copies (Prod.map (Option.map Text.unlined) (Option.map Code.shown))
      (Cursor.Beside next) d x c'
  | code head, c, x, c' => ∀ head' d, head'.unlined = head.unlined → c.Beside next d →
    (code head').Copies Code.shown (Cursor.Beside next) d x c'
  | comment head, c, x, c' => ∀ head' d, head'.unlined = head.unlined → c.Beside next d →
    (comment head').Copies Comment.shown (Cursor.Beside next) d x c'
  | below, c, block, c' => ∀ d, c.Beside next d →
    below.Copies (Option.map Block.shown) (Cursor.Beside next) d block c'
  | nodes, c, ns, c' => ∀ d, c.Beside next d →
    (c'.next.kind = .outdent → ∃ ns' d', Reads .nodes d ns' d' ∧
      ns'.map Node.shown = ns.map Node.shown ∧ c'.Before next d') ∧
    (c'.next.kind = .eos → c'.left ≤ 1 ∧ d.Opens next (Reads .nodes) ns)
  | _, _, _, _ => True

theorem Cursor.opens_nil {reads : Cursor → List Node → Cursor → Prop} (h : d.rest = next) :
    d.Opens next reads [] :=
  ⟨[], d, rfl, h, fun _ _ hothers => hothers⟩

/-- Nodes in front of others open both. -/
theorem Cursor.Opens.append {reads : Cursor → List Node → Cursor → Prop} {d₁ : Cursor}
    {ns ns' others : List Node} (h : d₁.Opens next reads others)
    (hview : ns'.map Node.shown = ns.map Node.shown)
    (hreads : ∀ others d', reads d₁ others d' → reads d (ns' ++ others) d') :
    d.Opens next reads (ns ++ others) := by
  obtain ⟨others', d', hothers, hrest, hopens⟩ := h
  refine ⟨ns' ++ others', d', ?_, hrest, ?_⟩
  · rw [List.map_append, List.map_append, hview, hothers]
  · intro more d'' hmore
    rw [List.append_assoc]
    exact hreads _ _ (hopens _ _ hmore)

/-- What comes to nodes from further on opens with them as well. -/
theorem Cursor.Opens.of_reads {reads : Cursor → List Node → Cursor → Prop} {d₁ : Cursor}
    {ns : List Node} (h : d₁.Opens next reads ns)
    (hreads : ∀ others d', reads d₁ others d' → reads d others d') : d.Opens next reads ns := by
  obtain ⟨ns', d', hns, hrest, hopens⟩ := h
  exact ⟨ns', d', hns, hrest, fun others d'' hothers => hreads _ _ (hopens _ _ hothers)⟩

theorem Cursor.Behind.left (h : c.Behind next d) : c.left ≤ 1 := by
  obtain ⟨e, hrest, -⟩ := h.ended
  simp [Cursor.left, hrest]

/-- Everything that leaves the end of the first template is read in both readings. The induction
follows the reading of the first template, and each rule is applied to the second cursor. -/
theorem Reads.repeats (hnext : Fresh next) {p : Phrase} {c c' : Cursor} {a : p.Value}
    (hreads : Reads p c a c') (hleft : 0 < c'.left) : p.Repeats next c a c' := by
  induction hreads with
  | stop | more | text | filterList | filterText | document | outdent => trivial
  | @element c c' name t htoken hreads ih =>
    intro d h
    obtain ⟨htoken', htake⟩ := h.first (.element htoken hreads)
    obtain ⟨t', d', hd', ht, h'⟩ := ih hleft (.ofName name d.next.line) d.take rfl htake
    refine ⟨some (.tag t'), d', .element (htoken'.trans htoken) hd', ?_, h'⟩
    show some (Node.tag t'.shown) = some (Node.tag t.shown)
    rw [ht]
  | @shorthand c c' t hkind hreads ih =>
    intro d h
    obtain ⟨htoken, htake⟩ := h.first (.shorthand hkind hreads)
    obtain ⟨t', d', hd', ht, h'⟩ := ih hleft (mark (.ofName "div" d.next.line) d.next) d.take
      (unlined_mark rfl htoken) htake
    refine ⟨some (.tag t'), d', .shorthand ?_ hd', ?_, h'⟩
    · rwa [Lexeme.kind, htoken]
    · show some (Node.tag t'.shown) = some (Node.tag t.shown)
      rw [ht]
  | doctype htoken =>
    intro d h
    obtain ⟨htoken', htake⟩ := h.first (.doctype htoken)
    exact ⟨_, d.take, .doctype (htoken'.trans htoken), rfl, .inl htake⟩
  | @filter c c' name f htoken hreads =>
    intro d h
    obtain ⟨htoken', htake⟩ := h.first (.filter htoken hreads)
    obtain ⟨f', d', hd', hf, h'⟩ := hreads.before_filter d.next.line htake
    refine ⟨some (.filter f'), d', .filter (htoken'.trans htoken) hd', ?_, .inl h'⟩
    show some (Node.filter f'.shown) = some (Node.filter f.shown)
    rw [hf]
  | @pipe c c' text htoken hreads =>
    intro d h
    obtain ⟨htoken', htake⟩ := h.first (.pipe htoken hreads)
    obtain ⟨text', d', hd', htext, h'⟩ := hreads.beside_text (.inl htake)
    refine ⟨some (.text text'), d', .pipe (htoken'.trans htoken) hd', ?_, .inl h'⟩
    show some (Node.text text'.unlined) = some (Node.text text.unlined)
    rw [htext]
  | @comment c c' body buffered x htoken hreads ih =>
    intro d h
    obtain ⟨htoken', htake⟩ := h.first (.comment htoken hreads)
    obtain ⟨x', d', hd', hx, h'⟩ :=
      ih hleft ⟨d.next.line, Character.trimSpaces body, buffered⟩ d.take rfl (.inl htake)
    refine ⟨some (.comment x'), d', .comment (htoken'.trans htoken) hd', ?_, h'⟩
    show some (Node.comment x'.shown) = some (Node.comment x.shown)
    rw [hx]
  | words htoken =>
    intro d h
    obtain ⟨htoken', htake⟩ := h.first (.words htoken)
    exact ⟨_, d.take, .words (htoken'.trans htoken), rfl, .inl htake⟩
  | @code c c' expression buffered x htoken hreads ih =>
    intro d h
    obtain ⟨htoken', htake⟩ := h.first (.code htoken hreads)
    obtain ⟨x', d', hd', hx, h'⟩ :=
      ih hleft (Grammar.statement d.next.line expression buffered) d.take rfl (.inl htake)
    refine ⟨some (.code x'), d', .code (htoken'.trans htoken) hd', ?_, h'⟩
    show some (Node.code x'.shown) = some (Node.code x.shown)
    rw [hx]
  | indent htoken =>
    intro d h
    obtain ⟨htoken', htake⟩ := h.first (.indent htoken)
    exact ⟨none, d.take, .indent (htoken'.trans htoken), rfl, .inl htake⟩
  | @tag e c c₁ c₂ c₃ c' marks _ text code block hmarks _ hnewlines hbelow _ hinline _ ihbelow =>
    intro e' d he h
    have hleft₂ : 0 < c₂.left :=
      Nat.lt_of_lt_of_le hleft (Nat.le_trans hbelow.left_le hnewlines.left_le)
    obtain ⟨marks', d₁, hmarks', htokens, h₁⟩ := hmarks.before_run rfl rfl rfl h
    obtain ⟨⟨text', code'⟩, d₂, hinline', hline, h₂⟩ := hinline hleft₂ d₁ h₁
    obtain ⟨_, d₃, hnewlines', h₃⟩ := hnewlines.beside_newlines hnext h₂
    obtain ⟨block', d', hbelow', hblock, h'⟩ := ihbelow hleft d₃ h₃
    refine ⟨_, d', .tag hmarks' hinline' hnewlines' hbelow', ?_, h'⟩
    obtain ⟨htext, hcode⟩ := Prod.mk.inj hline
    have helement := foldl_eq_of_tokens unlined_mark htokens he
    exact shown_eq_of_parts helement htext hcode hblock (h₃.kind_iff hnext (.inl rfl)) _ _
  | inlineText htoken =>
    intro d h
    obtain ⟨htoken', htake⟩ := h.inside (by simp [Lexeme.kind, htoken, Token.kind])
    exact ⟨_, d.take, .inlineText (htoken'.trans htoken), rfl, .inl htake⟩
  | @inlineCode c c' expression buffered x htoken _ ih =>
    intro d h
    obtain ⟨htoken', htake⟩ := h.inside (by simp [Lexeme.kind, htoken, Token.kind])
    obtain ⟨x', d', hd', hx, h'⟩ :=
      ih hleft (Grammar.statement d.next.line expression buffered) d.take rfl (.inl htake)
    refine ⟨(none, some x'), d', .inlineCode (htoken'.trans htoken) hd', ?_, h'⟩
    show (none, some x'.shown) = (none, some x.shown)
    rw [hx]
  | inlineNone htext hcode =>
    intro d h
    have htext' : d.next.kind ≠ .text := by
      simpa using (h.kind_iff (p := (· = .text)) rfl).trans (decide_eq_false htext)
    have hcode' : d.next.kind ≠ .code := by
      simpa using (h.kind_iff (p := (· = .code)) rfl).trans (decide_eq_false hcode)
    exact ⟨(none, none), d, .inlineNone htext' hcode', rfl, .inl h⟩
  | @codeText head c c₁ c' _ text hverbatim hnewlines htext =>
    intro head' d hhead h
    have hverbatim' : head'.verbatim = true :=
      (congrArg Statement.verbatim hhead).trans hverbatim
    obtain ⟨_, d₁, hnewlines', h₁⟩ := hnewlines.beside_newlines hnext h
    obtain ⟨text', d', htext', heq, h'⟩ := htext.beside_text h₁
    exact ⟨_, d', .codeText hverbatim' hnewlines' htext', Code.shown_eq_of_text hhead heq _ _,
      .inl h'⟩
  | @codeBlock head c c₁ c' _ block hverbatim hnewlines _ _ ih =>
    intro head' d hhead h
    have hverbatim' : head'.verbatim = false :=
      (congrArg Statement.verbatim hhead).trans hverbatim
    obtain ⟨_, d₁, hnewlines', h₁⟩ := hnewlines.beside_newlines hnext h
    obtain ⟨block', d', hbelow', hblock, h'⟩ := ih hleft d₁ h₁
    refine ⟨_, d', .codeBlock hverbatim' hnewlines' hbelow', ?_, h'⟩
    rw [Code.shown_mk, Code.shown_mk, hhead, hblock]
  | @commentBlock head c c₁ c' _ block hbuffered hnewlines _ _ ih =>
    intro head' d hhead h
    have hbuffered' : head'.buffered = true := (congrArg Remark.buffered hhead).trans hbuffered
    obtain ⟨_, d₁, hnewlines', h₁⟩ := hnewlines.beside_newlines hnext h
    obtain ⟨block', d', hbelow', hblock, h'⟩ := ih hleft d₁ h₁
    refine ⟨_, d', .commentBlock hbuffered' hnewlines' hbelow', ?_, h'⟩
    rw [Comment.shown_of_buffered hbuffered', Comment.shown_of_buffered hbuffered, hhead, hblock]
  | @commentText head c c₁ c' _ text hbuffered hnewlines hkind htext =>
    intro head' d hhead h
    have hbuffered' : head'.buffered = false := (congrArg Remark.buffered hhead).trans hbuffered
    obtain ⟨_, d₁, hnewlines', h₁⟩ := hnewlines.beside_newlines hnext h
    obtain ⟨text', d', htext', -, h'⟩ := htext.beside_text h₁
    exact ⟨_, d', .commentText hbuffered' hnewlines' ((h₁.kind_iff hnext (.inr rfl)).2 hkind)
      htext', Comment.shown_eq_of_hidden hbuffered hhead _ _, .inl h'⟩
  | @commentNone head c c' _ hbuffered hnewlines hkind =>
    intro head' d hhead h
    have hbuffered' : head'.buffered = false := (congrArg Remark.buffered hhead).trans hbuffered
    obtain ⟨_, d₁, hnewlines', h₁⟩ := hnewlines.beside_newlines hnext h
    exact ⟨_, d₁, .commentNone hbuffered' hnewlines' fun hindent =>
      hkind ((h₁.kind_iff hnext (.inr rfl)).1 hindent),
      Comment.shown_eq_of_hidden hbuffered hhead _ _, h₁⟩
  | @block c c' children hkind hreads ih =>
    intro d h
    have hbefore := h.before_of_ne (hkind.trans_ne (by decide))
    obtain ⟨htoken, htake⟩ := hbefore.inside (by rw [hkind]; decide)
    have hkind' : d.next.kind = .indent := (congrArg Token.kind htoken).trans hkind
    -- Something is left behind the lexeme that closes the block, so it is not the end.
    have hleft' : 1 < c'.left := by
      simpa [Cursor.close, Cursor.left, Cursor.take, Cursor.drop] using hleft
    obtain ⟨hout, hended⟩ := ih (Nat.lt_of_succ_lt hleft') d.take (.inl htake)
    have hclosed : c'.next.kind = .outdent :=
      hreads.halts.2.resolve_right fun heos => Nat.not_lt.2 (hended heos).1 hleft'
    obtain ⟨children', d', hd', hview, h'⟩ := hout hclosed
    refine ⟨some ⟨d.next.line, children'⟩, d'.close d.place, .block hkind' hd', ?_, ?_⟩
    · rw [Option.map_some, Option.map_some, Block.shown_mk, Block.shown_mk, hview]
    · exact (h'.outdent hclosed).2.imp id fun hbehind => ⟨hbehind.ended, hbehind.rest⟩
  | noBlock hkind =>
    intro d h
    refine ⟨none, d, .noBlock fun hindent => ?_, rfl, h⟩
    exact hkind ((h.kind_iff hnext (.inr rfl)).1 hindent)
  | @nil c hgoes hkind =>
    intro d h
    rw [Cursor.next_seen]
    refine ⟨fun hout => ?_, fun heos => ?_⟩
    · have hbefore := h.before_of_ne (hout.trans_ne (by decide))
      have hout' := (congrArg Token.kind (hbefore.outdent hout).1).trans hout
      exact ⟨[], d.seen, .nil hbefore.goes.2 (.inl hout'), rfl, hbefore⟩
    · rcases h.ended heos with hbehind | ⟨hd, hbehind⟩
      · exact ⟨hbehind.left, Cursor.opens_nil hbehind.rest⟩
      · refine ⟨hbehind.left, ?_⟩
        exact (Cursor.opens_nil hbehind.rest).of_reads fun others d' hothers => .newline hd hothers
  | @newline c c' ns hkind _ ih =>
    intro d h
    have hbefore := h.before_of_ne (hkind.trans_ne (by decide))
    obtain ⟨htoken, htake⟩ := hbefore.inside (by rw [hkind]; decide)
    have hkind' : d.next.kind = .newline := (congrArg Token.kind htoken).trans hkind
    obtain ⟨hout, hended⟩ := ih hleft d.take (.inl htake)
    refine ⟨fun hclosed => ?_, fun heos => ⟨(hended heos).1, ?_⟩⟩
    · obtain ⟨ns', d', hd', hview, h'⟩ := hout hclosed
      exact ⟨ns', d', .newline hkind' hd', hview, h'⟩
    · exact (hended heos).2.of_reads fun others d' hothers => .newline hkind' hothers
  | @cons c c₁ c' first others hfirst hothers ihfirst ihothers =>
    intro d h
    have hbefore := h.before_of_ne (c.next_seen ▸ hfirst.ready.1)
    obtain ⟨first', d₁, hfirst', hview, h₁⟩ :=
      ihfirst (Nat.lt_of_lt_of_le hleft hothers.left_le) d.seen hbefore
    have hlist := map_toList_eq hview
    obtain ⟨hout, hended⟩ := ihothers hleft d₁ h₁
    refine ⟨fun hclosed => ?_, fun heos => ⟨(hended heos).1, ?_⟩⟩
    · obtain ⟨others', d', hd', heq, h'⟩ := hout hclosed
      refine ⟨first'.toList ++ others', d', .cons hfirst' hd', ?_, h'⟩
      rw [List.map_append, List.map_append, heq, hlist]
    · exact (hended heos).2.append hlist fun others' d' hothers' => .cons hfirst' hothers'

/-! ### Documents -/

/-- A document goes on like its nodes do. -/
theorem Cursor.Opens.document {ns : List Node} (h : d.Opens next (Reads .nodes) ns) :
    d.Opens next (Reads .document) ns := by
  obtain ⟨ns', d', hview, hrest, hopens⟩ := h
  refine ⟨ns', d', hview, hrest, fun others d'' hothers => ?_⟩
  cases hothers with
  | document hnodes hkind => exact .document (hopens _ _ hnodes) hkind
  | outdent hnodes hkind hothers =>
    rw [← List.append_assoc]
    exact .outdent (hopens _ _ hnodes) hkind hothers

/-- Where the end of a template is left when its document was read, reading on with what
follows gives the same nodes first. -/
theorem Reads.opens (hnext : Fresh next) {ns : List Node} (hreads : Reads .document c ns c')
    (hleft : 0 < c'.left) (h : c.Beside next d) : d.Opens next (Reads .document) ns := by
  induction hreads using Reads.document_induction generalizing d with
  | document hnodes hkind =>
    exact ((hnodes.repeats hnext hleft d h).2 hkind).2.document
  | @outdent c c₁ c' ns others hnodes hkind hothers ih =>
    have hout : c₁.next.kind = .outdent := hnodes.halts.2.resolve_right hkind
    have hleft₁ : 0 < c₁.left := by
      have hlt : c₁.take.left < c₁.left := Cursor.left_take_lt hkind
      have hle := hothers.left_le
      omega
    obtain ⟨ns', d₁, hd₁, hview, h₁⟩ := (hnodes.repeats hnext hleft₁ d h).1 hout
    obtain ⟨htoken, htake⟩ := h₁.outdent hout
    have hkind' : d₁.next.kind ≠ .eos := by rwa [Lexeme.kind, htoken]
    exact (ih hleft htake).append hview fun _ _ hothers' => .outdent hd₁ hkind' hothers'

/-- Two documents below each other are read as one, apart from the lines. -/
theorem gives_document_below {ls ls' ms : List Lexeme} {e : Lexeme} {xs ys : List Node}
    {c₁ c₂ : Cursor} (hnext : Fresh next) (he : e.kind = .eos) (hls : Continues next ls ls')
    (hms : Continues [e] ms next) (hxs : (document { rest := ls }).Gives xs c₁)
    (hleft₁ : 0 < c₁.left) (hys : (document { rest := ms }).Gives ys c₂) (hleft₂ : 0 < c₂.left) :
    ∃ zs c', (document { rest := ls' }).Gives zs c' ∧
      zs.map Node.shown = xs.map Node.shown ++ ys.map Node.shown := by
  have hend : Fresh [e] := by
    refine ⟨e, [], rfl, ?_⟩
    rw [he]
    exact ⟨nofun, nofun, nofun⟩
  have hfirst : Cursor.Before next { rest := ls } { rest := ls' } := hls
  obtain ⟨xs', d, hxs', hrest, hopens⟩ :=
    (Reads.of_gives (p := .document) trivial hxs).opens hnext hleft₁ (.inl hfirst)
  -- Behind the nodes of the first one, the second one is read in the same way up to its end.
  have hsecond : Cursor.Before [e] { rest := ms } d := by
    rw [← hrest] at hms
    exact hms
  obtain ⟨ys', d', hys', hrest', hopens'⟩ :=
    (Reads.of_gives (p := .document) trivial hys).opens hend hleft₂ (.inl hsecond)
  have heos : d'.next.kind = .eos := by
    rw [Cursor.next, hrest']
    exact he
  have hnil : Reads .nodes d' [] d'.seen := .nil (Cursor.goes_of_rest hrest') (.inr heos)
  have hlast : Reads .document d' [] d'.seen := .document hnil (by rwa [Cursor.next_seen])
  refine ⟨xs' ++ (ys' ++ []), d'.seen, (hopens _ _ (hopens' _ _ hlast)).gives, ?_⟩
  rw [List.append_nil, List.map_append, hxs', hys']

end Offside.Reading
