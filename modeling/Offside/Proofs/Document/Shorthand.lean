import Offside.Proofs.Line.Shorthand

/-!
# A shorthand stands for a `div`

The lexemes of a template are read side by side with the same lexemes where a tag `div` stands
in front of a shorthand at the start of a line (`SpellsOut`). What two cursors can look at is
said once (`Cursor.Alongside.view`): the same lexeme, or the shorthand and the tag, whichever of
them the tag stands in front of.

Only where a node starts can a reading come upon the shorthand, because on the line of a tag no
line starts. There the shorthand is read as if the tag were in front (`Reads.tag_iff_mark`), and
from then on both read the same lexemes. So whatever is read at one cursor is read at the other
one (`Reads.concurs`). As the cursors can change places, one fails where the other one does.
-/

set_option autoImplicit false

namespace Offside

namespace Reading

/-! ### Lexemes side by side -/

/-- The second lexemes are the first ones, or have a tag `div` more in front of one shorthand
that stands where a line starts. The flag says whether a line starts in front of them. -/
inductive SpellsOut : Bool → List Lexeme → List Lexeme → Prop where
  | same (starts : Bool) (ls : List Lexeme) : SpellsOut starts ls ls
  | here {l : Lexeme} (hl : l.kind.isShorthand = true) (ls : List Lexeme) :
    SpellsOut true (l :: ls) (⟨.tag "div", l.line⟩ :: l :: ls)
  | cons (starts : Bool) (l : Lexeme) {ls ls' : List Lexeme}
      (h : SpellsOut (!l.kind.isInline) ls ls') : SpellsOut starts (l :: ls) (l :: ls')

theorem SpellsOut.start {starts : Bool} {ls ls' : List Lexeme} (h : SpellsOut starts ls ls') :
    SpellsOut true ls ls' := by
  cases h with
  | same _ ls => exact .same true ls
  | here hl ls => exact .here hl ls
  | cons _ l h => exact .cons true l h

/-- A line starts behind a lexeme that is not inside of one. -/
theorem spellsOut_append {l : Lexeme} (hl : l.kind.isShorthand = true) (back : List Lexeme)
    {front : List Lexeme} (hfront : ∀ m ∈ front.getLast?, m.kind.isInline = false)
    {starts : Bool} (hstarts : front = [] → starts = true) :
    SpellsOut starts (front ++ l :: back) (front ++ ⟨.tag "div", l.line⟩ :: l :: back) := by
  induction front generalizing starts with
  | nil =>
    rw [hstarts rfl]
    exact .here hl back
  | cons m front ih =>
    refine .cons starts m (ih (Source.getLast?_tail hfront) ?_)
    rintro rfl
    rw [hfront m rfl]
    rfl

/-- Whether tokens of this kind start a tag. -/
def Token.Kind.startsTag (kind : Token.Kind) : Bool :=
  kind = .tag || kind.isShorthand

/-- Two cursors whose lexemes are the same, but for a tag in front of one of them. Behind the
last ones the templates end. -/
structure Cursor.Alongside (starts : Bool) (c d : Cursor) : Prop where
  rests : SpellsOut starts c.rest d.rest ∨ SpellsOut starts d.rest c.rest
  line : d.line = c.line
  left : c.failure = none
  right : d.failure = none

/-- What two cursors look at. -/
inductive Cursor.View (starts : Bool) (c d : Cursor) : Prop where
  | same (hnext : d.next = c.next) (htake : c.take.Alongside (!c.next.kind.isInline) d.take)
  | tag (hstarts : starts = true) (hc : c.next.kind.isShorthand = true)
      (hd : d.next = ⟨.tag "div", c.next.line⟩) (hrest : d.take.rest = c.rest)
  | bare (hstarts : starts = true) (hd : d.next.kind.isShorthand = true)
      (hc : c.next = ⟨.tag "div", d.next.line⟩) (hrest : c.take.rest = d.rest)

namespace Cursor

variable {starts : Bool} {c d : Cursor}

theorem Alongside.symm (hcd : c.Alongside starts d) : d.Alongside starts c :=
  ⟨hcd.rests.symm, hcd.line.symm, hcd.right, hcd.left⟩

theorem View.symm (hcd : View starts c d) : View starts d c := by
  cases hcd with
  | same hnext htake =>
    refine .same hnext.symm ?_
    rw [hnext]
    exact htake.symm
  | tag hstarts hc hd hrest => exact .bare hstarts hc hd hrest
  | bare hstarts hd hc hrest => exact .tag hstarts hd hc hrest

theorem view_of_spellsOut (h : SpellsOut starts c.rest d.rest) (hline : d.line = c.line)
    (hleft : c.failure = none) (hright : d.failure = none) : View starts c d := by
  obtain ⟨rest, failure, line, place, spans⟩ := c
  obtain ⟨rest', failure', line', place', spans'⟩ := d
  dsimp only at h hline hleft hright
  subst hline
  cases h with
  | same _ ls =>
    cases rest with
    | nil => exact .same rfl ⟨.inl (.same _ []), rfl, hleft, hright⟩
    | cons l ls => exact .same rfl ⟨.inl (.same _ ls), rfl, hleft, hright⟩
  | here hl ls => exact .tag rfl hl rfl rfl
  | cons _ l h => exact .same rfl ⟨.inl h, rfl, hleft, hright⟩

section

variable (hcd : c.Alongside starts d)

include hcd

theorem Alongside.view : View starts c d :=
  hcd.rests.elim (fun h => view_of_spellsOut h hcd.line hcd.left hcd.right)
    fun h => (view_of_spellsOut h hcd.line.symm hcd.right hcd.left).symm

theorem Alongside.goes : d.Goes :=
  fun _ => hcd.right

theorem Alongside.start : c.Alongside true d :=
  ⟨hcd.rests.imp SpellsOut.start SpellsOut.start, hcd.line, hcd.left, hcd.right⟩

theorem Alongside.seen : c.seen.Alongside starts d.seen := by
  refine ⟨hcd.rests, ?_, hcd.left, hcd.right⟩
  show d.next.line = c.next.line
  cases hcd.view with
  | same hnext _ => rw [hnext]
  | tag _ _ hd _ => rw [hd]
  | bare _ _ hc _ => rw [hc]

/-- Both cursors look at the same lexeme, or at lexemes with which tags start. -/
theorem Alongside.same_or :
    (d.next = c.next ∧ c.take.Alongside (!c.next.kind.isInline) d.take) ∨ starts = true ∧
      Token.Kind.startsTag c.next.kind = true ∧ Token.Kind.startsTag d.next.kind = true := by
  cases hcd.view with
  | same hnext htake => exact .inl ⟨hnext, htake⟩
  | tag hstarts hc hd _ =>
    exact .inr ⟨hstarts, by simp [Token.Kind.startsTag, hc], by rw [hd]; rfl⟩
  | bare hstarts hd hc _ =>
    exact .inr ⟨hstarts, by rw [hc]; rfl, by simp [Token.Kind.startsTag, hd]⟩

end

/-- Inside of a line both cursors look at the same lexeme. -/
theorem Alongside.inside (hcd : c.Alongside false d) :
    d.next = c.next ∧ c.take.Alongside (!c.next.kind.isInline) d.take :=
  hcd.same_or.resolve_right fun hstarts => Bool.noConfusion hstarts.1

/-- Where no tag starts, both cursors look at the same lexeme. -/
theorem Alongside.same_of_ne (hcd : c.Alongside starts d)
    (hc : Token.Kind.startsTag c.next.kind = false) :
    d.next = c.next ∧ c.take.Alongside (!c.next.kind.isInline) d.take := by
  refine hcd.same_or.resolve_right fun ⟨_, hc', _⟩ => ?_
  rw [hc] at hc'
  cases hc'

/-- Both cursors look at a lexeme of a kind or none does, unless tags start with it. -/
theorem Alongside.kind_iff (hcd : c.Alongside starts d) (kind : Token.Kind)
    (hkind : Token.Kind.startsTag kind = false) : d.next.kind = kind ↔ c.next.kind = kind := by
  rcases hcd.same_or with ⟨hnext, -⟩ | ⟨-, hc, hd⟩
  · rw [hnext]
  · refine iff_of_false ?_ ?_ <;> rintro rfl <;> simp_all

theorem Alongside.close (hcd : c.Alongside starts d)
    (hend : c.next.kind = .outdent ∨ c.next.kind = .eos) (m n : Nat) :
    (c.close m).Alongside true (d.close n) := by
  have htake := (hcd.same_of_ne (by rcases hend with hend | hend <;> rw [hend] <;> rfl)).2.start
  exact ⟨htake.rests, htake.line, htake.left, htake.right⟩

end Cursor

/-! ### Runs of lexemes and texts -/

variable {c c' d : Cursor}

/-- A run takes the same lexemes in both readings, if it does not go over the shorthand. -/
theorem Reads.concurs_run {p : Token.Kind → Bool} {starts : Bool} {taken : List Lexeme}
    (hstop : starts = true → ∀ kind, Token.Kind.startsTag kind = true → p kind = false)
    (hgo : starts = false → ∀ kind, p kind = true → kind.isInline = true)
    (hreads : Reads (.run p) c taken c') (hcd : c.Alongside starts d) :
    ∃ d', Reads (.run p) d taken d' ∧ c'.Alongside starts d' := by
  induction hreads using Reads.run_induction generalizing d with
  | stop hgoes hp =>
    refine ⟨d.seen, .stop hcd.goes ?_, hcd.seen⟩
    rcases hcd.same_or with ⟨hnext, -⟩ | ⟨hstarts, -, hd⟩
    · rwa [hnext]
    · exact hstop hstarts _ hd
  | @more c c' taken hp heos hreads ih =>
    rcases hcd.same_or with ⟨hnext, htake⟩ | ⟨hstarts, hc, -⟩
    · have htake' : c.take.Alongside starts d.take := by
        cases starts with
        | true => exact htake.start
        | false =>
          rw [hgo rfl _ hp] at htake
          exact htake
      obtain ⟨d', hd', h'⟩ := ih htake'
      rw [← hnext] at hp heos ⊢
      exact ⟨d', .more hp heos hd', h'⟩
    · rw [hstop hstarts _ hc] at hp
      cases hp

theorem Reads.concurs_newlines {taken : List Lexeme}
    (hreads : Reads (.run (· = .newline)) c taken c') (hcd : c.Alongside true d) :
    ∃ d', Reads (.run (· = .newline)) d taken d' ∧ c'.Alongside true d' := by
  refine hreads.concurs_run (fun _ kind hkind => ?_) Bool.noConfusion hcd
  cases kind <;> first | rfl | cases hkind

theorem Reads.concurs_marks {taken : List Lexeme} (hreads : Reads (.run isMark) c taken c')
    (hcd : c.Alongside false d) : ∃ d', Reads (.run isMark) d taken d' ∧ c'.Alongside false d' := by
  refine hreads.concurs_run Bool.noConfusion (fun _ kind hkind => ?_) hcd
  cases kind <;> first | rfl | cases hkind

theorem Reads.concurs_text {text : Text} (hreads : Reads .text c text c')
    (hcd : c.Alongside true d) : ∃ d', Reads .text d text d' ∧ c'.Alongside true d' := by
  have hstop : ∀ kind, Token.Kind.startsTag kind = true → isTextual kind = false := by
    intro kind hkind
    cases kind <;> first | rfl | cases hkind
  cases hreads with
  | text hkind hreads =>
    have hkind' : isTextual d.next.kind = true := by
      rcases hcd.same_or with ⟨hnext, -⟩ | ⟨-, hc, -⟩
      · rwa [hnext]
      · rw [hstop _ hc] at hkind
        cases hkind
    obtain ⟨d', hd', h'⟩ := hreads.concurs_run (fun _ => hstop) Bool.noConfusion hcd.seen
    rw [← hcd.line]
    exact ⟨d', .text hkind' hd', h'⟩

theorem Reads.concurs_filter {name : String} {line : Nat} {f : Filter}
    (hreads : Reads (.filter name line) c f c') (hcd : c.Alongside false d) :
    ∃ d', Reads (.filter name line) d f d' ∧ c'.Alongside true d' := by
  obtain ⟨hnext, htake⟩ := hcd.inside
  cases hreads with
  | filterList htoken hreads =>
    obtain ⟨d', hd', h'⟩ := hreads.concurs_text htake.start
    exact ⟨d', .filterList (hnext ▸ htoken) hd', h'⟩
  | filterText hgoes hkind hreads =>
    obtain ⟨d', hd', h'⟩ := hreads.concurs_text hcd.start.seen
    exact ⟨d', .filterText hcd.goes (hnext ▸ hkind) hd', h'⟩

/-! ### Nodes and blocks -/

theorem isMark_of_isShorthand {kind : Token.Kind} (h : kind.isShorthand = true) :
    isMark kind = true := by
  cases kind <;> first | rfl | cases h

theorem isInline_of_isShorthand {kind : Token.Kind} (h : kind.isShorthand = true) :
    kind.isInline = true := by
  cases kind <;> first | rfl | cases h

/-- Whether a line can start where a phrase is read. -/
def Phrase.starts : Phrase → Bool
  | tag _ | inline => false
  | _ => true

/-- A phrase is read at every cursor alongside. Where a node starts, its line has been seen. -/
def Phrase.Concurs : (p : Phrase) → Cursor → p.Value → Cursor → Prop
  | run _, _, _, _ | filter _ _, _, _, _ | document, _, _, _ => True
  | p, c, a, c' => ∀ d, c.Alongside p.starts d → (p = node → c.line = c.next.line) →
    ∃ d', Reads p d a d' ∧ c'.Alongside true d'

/-- The tag of a shorthand is read at a cursor in front of the tag `div`. -/
theorem Reads.concurs_element {t : Tag} (hc : c.next.kind.isShorthand = true)
    (hd : d.next = ⟨.tag "div", c.next.line⟩) (hrest : d.take.rest = c.rest)
    (hcd : c.Alongside true d)
    (ih : (Phrase.tag (mark (.ofName "div" c.next.line) c.next)).Concurs c.take t c') :
    ∃ d', Reads .node d (some (.tag t)) d' ∧ c'.Alongside true d' := by
  have hnext : d.take.next = c.next := by
    have heos : c.next.kind ≠ .eos := fun heos => by simp [heos, Token.Kind.isShorthand] at hc
    rw [Cursor.next, hrest, Cursor.rest_eq_of_next heos]
    rfl
  have htake : c.take.Alongside false d.take.take := by
    refine ⟨.inl ?_, ?_, hcd.left, hcd.right⟩
    · show SpellsOut false (c.rest.drop 1) (d.take.rest.drop 1)
      rw [hrest]
      exact .same false _
    · exact congrArg Lexeme.line hnext
  obtain ⟨d', hd', h'⟩ := ih d.take.take htake (by rintro ⟨⟩)
  rw [← hnext] at hd' hc
  refine ⟨d', .element (congrArg Lexeme.token hd) ?_, h'⟩
  rw [Reads.tag_iff_mark (isMark_of_isShorthand hc), hd]
  rwa [hnext] at hd' ⊢

/-- The tag `div` is read at a cursor in front of a shorthand. -/
theorem Reads.concurs_shorthand {name : String} {t : Tag} (htoken : c.next.token = .tag name)
    (hd : d.next.kind.isShorthand = true) (hc : c.next = ⟨.tag "div", d.next.line⟩)
    (hrest : c.take.rest = d.rest) (hcd : c.Alongside true d) (hline : c.line = c.next.line)
    (ih : (Phrase.tag (.ofName name c.next.line)).Concurs c.take t c') :
    ∃ d', Reads .node d (some (.tag t)) d' ∧ c'.Alongside true d' := by
  have htake : c.take.Alongside false d :=
    ⟨.inl (hrest ▸ .same false _), hcd.line.trans hline, hcd.left, hcd.right⟩
  obtain ⟨d', hd', h'⟩ := ih d htake nofun
  rw [hc] at htoken
  obtain rfl : "div" = name := Token.tag.inj htoken
  rw [Reads.tag_iff_mark (isMark_of_isShorthand hd), hc] at hd'
  exact ⟨d', .shorthand hd hd', h'⟩

/-- What is read at a cursor is read at every cursor alongside, with the same value. The induction
follows the reading; only where a node starts can the cursors look at different lexemes. -/
theorem Reads.concurs {p : Phrase} {c c' : Cursor} {a : p.Value} (hreads : Reads p c a c') :
    p.Concurs c a c' := by
  induction hreads with
  | stop | more | filterList | filterText | document | outdent => trivial
  | text hkind hreads =>
    intro d hcd _
    exact (Reads.text hkind hreads).concurs_text hcd
  | @element c c' name t htoken hreads ih =>
    intro d hcd hline
    cases hcd.view with
    | same hnext htake =>
      rw [Lexeme.kind, htoken] at htake
      obtain ⟨d', hd', h'⟩ := ih d.take htake nofun
      rw [← hnext] at htoken hd'
      exact ⟨d', .element htoken hd', h'⟩
    | tag _ hc _ _ =>
      rw [Lexeme.kind, htoken] at hc
      cases hc
    | bare _ hd hc hrest => exact Reads.concurs_shorthand htoken hd hc hrest hcd (hline rfl) ih
  | @shorthand c c' t hkind hreads ih =>
    intro d hcd _
    cases hcd.view with
    | same hnext htake =>
      rw [isInline_of_isShorthand hkind] at htake
      obtain ⟨d', hd', h'⟩ := ih d.take htake nofun
      rw [← hnext] at hkind hd'
      exact ⟨d', .shorthand hkind hd', h'⟩
    | tag _ hc hd hrest => exact Reads.concurs_element hc hd hrest hcd ih
    | bare _ _ hc _ =>
      rw [hc] at hkind
      cases hkind
  | doctype htoken =>
    intro d hcd _
    obtain ⟨hnext, htake⟩ := hcd.same_of_ne (by rw [Lexeme.kind, htoken]; rfl)
    rw [← hnext] at htoken ⊢
    exact ⟨d.take, .doctype htoken, htake.start⟩
  | filter htoken hreads =>
    intro d hcd _
    obtain ⟨hnext, htake⟩ := hcd.same_of_ne (by rw [Lexeme.kind, htoken]; rfl)
    rw [Lexeme.kind, htoken] at htake
    obtain ⟨d', hd', h'⟩ := hreads.concurs_filter htake
    rw [← hnext] at htoken hd'
    exact ⟨d', .filter htoken hd', h'⟩
  | pipe htoken hreads =>
    intro d hcd _
    obtain ⟨hnext, htake⟩ := hcd.same_of_ne (by rw [Lexeme.kind, htoken]; rfl)
    obtain ⟨d', hd', h'⟩ := hreads.concurs_text htake.start
    exact ⟨d', .pipe (hnext ▸ htoken) hd', h'⟩
  | comment htoken _ ih =>
    intro d hcd _
    obtain ⟨hnext, htake⟩ := hcd.same_of_ne (by rw [Lexeme.kind, htoken]; rfl)
    obtain ⟨d', hd', h'⟩ := ih d.take htake.start nofun
    rw [← hnext] at htoken hd'
    exact ⟨d', .comment htoken hd', h'⟩
  | words htoken =>
    intro d hcd _
    obtain ⟨hnext, htake⟩ := hcd.same_of_ne (by rw [Lexeme.kind, htoken]; rfl)
    rw [← hnext] at htoken ⊢
    exact ⟨d.take, .words htoken, htake.start⟩
  | code htoken _ ih =>
    intro d hcd _
    obtain ⟨hnext, htake⟩ := hcd.same_of_ne (by rw [Lexeme.kind, htoken]; rfl)
    obtain ⟨d', hd', h'⟩ := ih d.take htake.start nofun
    rw [← hnext] at htoken hd'
    exact ⟨d', .code htoken hd', h'⟩
  | indent htoken =>
    intro d hcd _
    obtain ⟨hnext, htake⟩ := hcd.same_of_ne (by rw [Lexeme.kind, htoken]; rfl)
    exact ⟨d.take, .indent (hnext ▸ htoken), htake.start⟩
  | @tag e c c₁ c₂ c₃ c' marks _ text code block hmarks _ hnewlines _ _ ihinline _ ihbelow =>
    intro d hcd _
    obtain ⟨d₁, hmarks', h₁⟩ := hmarks.concurs_marks hcd
    obtain ⟨d₂, hinline', h₂⟩ := ihinline d₁ h₁ nofun
    obtain ⟨d₃, hnewlines', h₃⟩ := hnewlines.concurs_newlines h₂
    obtain ⟨d', hbelow', h'⟩ := ihbelow d₃ h₃ nofun
    have htag := Reads.tag (e := e) hmarks' hinline' hnewlines' hbelow'
    simp only [h₃.kind_iff .text rfl, h₃.line] at htag
    exact ⟨d', htag, h'⟩
  | inlineText htoken =>
    intro d hcd _
    obtain ⟨hnext, htake⟩ := hcd.inside
    rw [← hnext] at htoken ⊢
    exact ⟨d.take, .inlineText htoken, htake.start⟩
  | inlineCode htoken _ ih =>
    intro d hcd _
    obtain ⟨hnext, htake⟩ := hcd.inside
    obtain ⟨d', hd', h'⟩ := ih d.take htake.start nofun
    rw [← hnext] at htoken hd'
    exact ⟨d', .inlineCode htoken hd', h'⟩
  | inlineNone htext hcode =>
    intro d hcd _
    obtain ⟨hnext, -⟩ := hcd.inside
    rw [← hnext] at htext hcode
    exact ⟨d, .inlineNone htext hcode, hcd.start⟩
  | codeText hverbatim hnewlines htext =>
    intro d hcd _
    obtain ⟨d₁, hnewlines', h₁⟩ := hnewlines.concurs_newlines hcd
    obtain ⟨d', htext', h'⟩ := htext.concurs_text h₁
    exact ⟨d', .codeText hverbatim hnewlines' htext', h'⟩
  | codeBlock hverbatim hnewlines _ _ ih =>
    intro d hcd _
    obtain ⟨d₁, hnewlines', h₁⟩ := hnewlines.concurs_newlines hcd
    obtain ⟨d', hbelow', h'⟩ := ih d₁ h₁ nofun
    exact ⟨d', .codeBlock hverbatim hnewlines' hbelow', h'⟩
  | commentBlock hbuffered hnewlines _ _ ih =>
    intro d hcd _
    obtain ⟨d₁, hnewlines', h₁⟩ := hnewlines.concurs_newlines hcd
    obtain ⟨d', hbelow', h'⟩ := ih d₁ h₁ nofun
    exact ⟨d', .commentBlock hbuffered hnewlines' hbelow', h'⟩
  | commentText hbuffered hnewlines hkind htext =>
    intro d hcd _
    obtain ⟨d₁, hnewlines', h₁⟩ := hnewlines.concurs_newlines hcd
    obtain ⟨d', htext', h'⟩ := htext.concurs_text h₁
    exact ⟨d', .commentText hbuffered hnewlines' ((h₁.kind_iff _ rfl).2 hkind) htext', h'⟩
  | commentNone hbuffered hnewlines hkind =>
    intro d hcd _
    obtain ⟨d₁, hnewlines', h₁⟩ := hnewlines.concurs_newlines hcd
    exact ⟨d₁, .commentNone hbuffered hnewlines' (mt (h₁.kind_iff _ rfl).1 hkind), h₁⟩
  | block hkind hreads ih =>
    intro d hcd _
    obtain ⟨hnext, htake⟩ := hcd.same_of_ne (by rw [hkind]; rfl)
    obtain ⟨d', hd', h'⟩ := ih d.take htake.start nofun
    rw [← hnext] at hkind ⊢
    exact ⟨d'.close d.place, .block hkind hd', h'.close hreads.halts.2 _ _⟩
  | noBlock hkind =>
    intro d hcd _
    exact ⟨d, .noBlock (mt (hcd.kind_iff _ rfl).1 hkind), hcd⟩
  | nil hgoes hkind =>
    intro d hcd _
    have hends := or_congr (hcd.kind_iff .outdent rfl) (hcd.kind_iff .eos rfl)
    exact ⟨d.seen, .nil hcd.goes (hends.2 hkind), hcd.seen⟩
  | newline hkind _ ih =>
    intro d hcd _
    obtain ⟨hnext, htake⟩ := hcd.same_of_ne (by rw [hkind]; rfl)
    obtain ⟨d', hd', h'⟩ := ih d.take htake.start nofun
    exact ⟨d', .newline (hnext ▸ hkind) hd', h'⟩
  | @cons c _ _ _ _ _ _ ihfirst ihothers =>
    intro d hcd _
    obtain ⟨d₁, hfirst', h₁⟩ := ihfirst d.seen hcd.seen fun _ => by rw [Cursor.next_seen]; rfl
    obtain ⟨d', hothers', h'⟩ := ihothers d₁ h₁ nofun
    exact ⟨d', .cons hfirst' hothers', h'⟩

theorem Reads.concurs_document {ns : List Node} (hreads : Reads .document c ns c')
    (hcd : c.Alongside true d) : ∃ d', Reads .document d ns d' := by
  induction hreads using Reads.document_induction generalizing d with
  | document hnodes hkind =>
    obtain ⟨d', hd', h'⟩ := hnodes.concurs d hcd nofun
    exact ⟨d', .document hd' ((h'.kind_iff .eos rfl).2 hkind)⟩
  | outdent hnodes hkind hothers ih =>
    obtain ⟨d₁, hd₁, h₁⟩ := hnodes.concurs d hcd nofun
    have hout := hnodes.halts.2.resolve_right hkind
    obtain ⟨-, htake⟩ := h₁.same_of_ne (by rw [hout]; rfl)
    obtain ⟨d', hd'⟩ := ih htake.start
    exact ⟨d', .outdent hd₁ (mt (h₁.kind_iff .eos rfl).1 hkind) hd'⟩

/-- A document that is read at a cursor is the one at every cursor alongside. -/
theorem Cursor.Alongside.read_eq (hcd : c.Alongside true d) {root : Block}
    (hroot : read c = .ok root) : read d = .ok root := by
  obtain ⟨line, children⟩ := root
  obtain ⟨c', hline, hreads⟩ := exists_reads hroot
  obtain ⟨d', hd'⟩ := hreads.concurs_document hcd
  rw [read_of_reads hd', hcd.line, ← hline]

/-- Lexemes with the tag of a shorthand spelled out are no document, or the same one. -/
theorem read_spellsOut {ls ls' : List Lexeme} (h : SpellsOut true ls ls') :
    (∃ root, ofLexemes ls = .ok root ∧ ofLexemes ls' = .ok root) ∨
      ∃ e e', ofLexemes ls = .error e ∧ ofLexemes ls' = .error e' := by
  have hcd : Cursor.Alongside true { rest := ls } { rest := ls' } := ⟨.inl h, rfl, rfl, rfl⟩
  cases hls : ofLexemes ls with
  | ok root => exact .inl ⟨root, rfl, hcd.read_eq hls⟩
  | error e =>
    cases hls' : ofLexemes ls' with
    | error e' => exact .inr ⟨e, e', rfl, rfl⟩
    | ok root =>
      have hroot := hcd.symm.read_eq hls'
      rw [ofLexemes, hroot] at hls
      cases hls

end Reading

/-- A shorthand where a line starts is a `div`. With `div` in front of it, a template that
tokenizes still does; both have no document, or they have the same one, with the same lines.
The line may be anywhere in the template, but for verbatim regions. -/
theorem parse_shorthand_eq_div {layout : Layout} {source source' : String}
    {above lower : List (List Char)} {lead text : List Char} {mark c : Char} {ls : List Lexeme}
    (hlines : Source.lines source = above ++ (lead ++ mark :: c :: text) :: lower)
    (hlines' : Source.lines source' =
      above ++ (lead ++ ("div".toList ++ mark :: c :: text)) :: lower)
    (hlead : ∀ c ∈ lead, c = ' ' ∨ c = '\t') (hmark : mark = '#' ∨ mark = '.')
    (hc : Character.isName c = true) (htokens : tokenize layout source = .ok ls)
    (houtside : Source.isOutsideBelow layout source above = true) :
    (∃ root, parse layout source = .ok root ∧ parse layout source' = .ok root) ∨
      ∃ e e', parse layout source = .error e ∧ parse layout source' = .error e' := by
  obtain ⟨front, l, back, rfl, htokens', hl, hfront⟩ :=
    tokenize_shorthand hlines hlines' hlead hmark hc htokens houtside
  rw [parse_eq_ofLexemes htokens, parse_eq_ofLexemes htokens']
  exact Reading.read_spellsOut (Reading.spellsOut_append hl back hfront fun _ => rfl)

/-- The line closes a verbatim region, in which a shorthand is text, and a level above it; it
has a text and a block. -/
theorem parse_shorthand_eq_div_nested :
    ∃ root, parse {} "ul\n  li\n    |\n      #x\n  #a.b c\n    p" = .ok root ∧
      parse {} "ul\n  li\n    |\n      #x\n  div#a.b c\n    p" = .ok root := by
  let source := "ul\n  li\n    |\n      #x\n  #a.b c\n    p"
  let above := Source.lines "ul\n  li\n    |\n      #x"
  let lead := "  ".toList
  have hlines : Source.lines source =
      above ++ (lead ++ '#' :: 'a' :: ".b c".toList) :: ["    p".toList] := by
    decide +kernel
  have hlines' : Source.lines "ul\n  li\n    |\n      #x\n  div#a.b c\n    p" =
      above ++ (lead ++ ("div".toList ++ '#' :: 'a' :: ".b c".toList)) :: ["    p".toList] := by
    decide +kernel
  have htokens : tokenize {} source = .ok ((tokenize {} source).toOption.getD []) := by
    decide +kernel
  have hparses : (parse {} source).isOk = true := by decide +kernel
  have hparse := parse_shorthand_eq_div hlines hlines' (by decide) (.inl rfl) (by decide) htokens
    (by decide +kernel)
  refine hparse.resolve_right ?_
  rintro ⟨e, e', herror, -⟩
  rw [herror] at hparses
  cases hparses

end Offside
