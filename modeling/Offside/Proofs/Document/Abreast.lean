import Offside.Proofs.Document.Seam
import Offside.Proofs.Token.Hold

/-!
# Cursors of two readings

The lexemes of a template and those of the same template with a blank line more (`Inserts`)
are read side by side. Up to the blank line the cursors have the same tokens ahead, one of
which is the blank line for the second cursor only (`Joins`), and behind it they have the
same tokens and nothing else (`SameTokens`).

In between the second cursor may be behind the first one. Where a hidden comment ends in front
of the blank line, it has a newline more ahead (`Trails`), and where text of hidden code does,
it may have a newline and an indent more ahead (`Lags`).

`Cursor.Ahead.fork` says once what two cursors can look at, and the other lemmas lead from
one of these relations to the next.
-/

set_option autoImplicit false

namespace Offside

/-! ### Holds where text is read -/

open Reading (isTextual)

variable {h h' : Hold} {l : Lexeme} {ls ls' : List Lexeme} {t : Bool}

/-- Outside of regions only indents are bound to fit. -/
theorem Hold.Fits.of_closed (hfits : l.kind = .indent → h.Fits l ls) (hclosed : h.isOpen = false)
    (hclosed' : h'.isOpen = false) : h'.Fits l ls := by
  refine ⟨?_, ?_⟩
  · intro hends
    cases h' with
    | comment | code => cases hclosed'
    | _ => cases hends
  · intro hl
    rw [hclosed'] at hl
    have hstarts := (hfits hl).starts
    rw [hclosed] at hstarts
    exact hstarts hl

variable {token : Token}

/-- What is not text leads on as if nothing were held. -/
theorem Hold.after_eq_free (hh : h = .comment ∨ h = .region ∨ h = .loose t)
    (htoken : isTextual token.kind = false) : h.after token = Hold.free.after token := by
  cases token with
  | text value | indent => cases htoken
  | _ => rcases hh with rfl | rfl | rfl <;> rfl

/-- Inside a text, text stays inside it. -/
theorem Hold.after_textual (hh : h = .region ∨ h = .loose t)
    (htoken : isTextual token.kind = true) : h.after token = h := by
  cases token with
  | text value | indent => rcases hh with rfl | rfl <;> rfl
  | _ => cases htoken

/-- Whether nothing is held behind tokens of this kind where nothing was held in front. -/
def Token.Kind.isPlain : Token.Kind → Bool
  | .text | .doctype | .indent | .outdent | .newline | .eos => true
  | _ => false

theorem Hold.free_after (htoken : token.kind.isPlain = true) : Hold.free.after token = .free := by
  cases token with
  | text value | doctype version | indent | outdent | newline | eos => rfl
  | _ => cases htoken

theorem Hold.free_after_of_shorthand (htoken : token.kind.isShorthand = true) :
    Hold.free.after token = .tagged := by
  cases token with
  | idName name | className name => rfl
  | _ => cases htoken

theorem Hold.tagged_after (htoken : token.kind ≠ .code) :
    Hold.tagged.after token = Hold.free.after token := by
  cases token with
  | code source buffered => exact absurd rfl htoken
  | _ => rfl

theorem Hold.tagged_after_of_isMark (htoken : Reading.isMark token.kind = true) :
    Hold.tagged.after token = .tagged := by
  cases token with
  | idName name | className name | attributes raw as => rfl
  | _ => cases htoken

namespace Inserts

/-- Where no hidden code is in front, a blank line severs nothing. -/
theorem blank_of_plain {x b b' : Lexeme} (hh : h = .free ∨ h = .region)
    (hx : x.token = if h.isOpen then .indent else .newline)
    (hb : b.kind = .newline ∨ b.kind = .indent ∨ b.kind = .outdent) (hfits : h.Fits b ls)
    (htokens : (b' :: ls').map (·.token) = (b :: ls).map (·.token)) :
    Inserts h (b :: ls) (x :: b' :: ls') := by
  refine .blank hx hb hfits ?_ ?_ ?_ htokens <;> rcases hh with rfl | rfl <;> simp

/-- Where text is read, all that is open is a region. -/
theorem toRegion (hinserts : Inserts h (l :: ls) ls') (hopen : h.isOpen = true)
    (hl : isTextual l.kind = true) : Inserts .region (l :: ls) ls' := by
  have hfits : h.Fits l ls → Hold.region.Fits l ls := by
    intro hfits
    refine ⟨fun hends => absurd hends (by decide), ?_⟩
    have hstarts := hfits.starts
    rwa [hopen] at hstarts
  cases hinserts with
  | blank hx hb hfits' _ _ _ htokens =>
    exact blank_of_plain (.inr rfl) (by rw [hx, hopen]; rfl) hb (hfits hfits') htokens
  | cons hl' hfits' htail =>
    refine .cons hl' (hfits hfits') ?_
    have htoken : l.token.kind = .text ∨ l.token.kind = .indent := by
      unfold Lexeme.kind at hl
      cases hkind : l.token.kind <;> simp_all [isTextual]
    rw [Hold.after_of_isOpen rfl htoken]
    rwa [Hold.after_of_isOpen hopen htoken] at htail

/-- Behind a region that was ended, text leads on to text at the level of the code. -/
theorem toLoose (hinserts : Inserts (.broken t) (l :: ls) ls') (hl : l.kind = .text) :
    Inserts (.loose t) (l :: ls) ls' := by
  cases hinserts with
  | blank _ _ _ hbroken => exact absurd rfl (hbroken t)
  | cons hl' hfits htail =>
    refine .cons hl' (.of_closed (fun _ => hfits) rfl rfl) ?_
    obtain ⟨token, line⟩ := l
    cases token with
    | text value => exact htail
    | _ => cases hl

/-- Behind a tag, all but code leads on as if there were none. -/
theorem untagged (hinserts : Inserts .tagged ls ls') (hls : ∀ l ∈ ls.head?, l.kind ≠ .code) :
    Inserts .free ls ls' := by
  cases hinserts with
  | blank hx hb hfits _ _ _ htokens =>
    exact blank_of_plain (.inl rfl) hx hb (.of_closed (fun _ => hfits) rfl rfl) htokens
  | cons hl' hfits htail =>
    have hl := hls _ rfl
    rw [Hold.tagged_after hl] at htail
    exact .cons hl' (.of_closed (fun _ => hfits) rfl rfl) htail

end Inserts

namespace Reading

open Result

/-! ### Lexemes side by side -/

/-- Lexemes with the same tokens. -/
def SameTokens (ls ls' : List Lexeme) : Prop :=
  ls'.map (·.token) = ls.map (·.token)

/-- The second lexemes have the same tokens, or a blank line more behind a hold. -/
def Joins (h : Hold) (ls ls' : List Lexeme) : Prop :=
  SameTokens ls ls' ∨ Inserts h ls ls'

/-- The second lexemes have a newline more in front. -/
def Trails (ls ls' : List Lexeme) : Prop :=
  ∃ x ms, ls' = x :: ms ∧ x.kind = .newline ∧ SameTokens ls ms

/-- The second lexemes have a newline and an indent more in front. -/
def Lags (ls ls' : List Lexeme) : Prop :=
  ∃ x b ms, ls' = x :: b :: ms ∧ x.kind = .newline ∧ b.kind = .indent ∧ SameTokens ls ms

/-- Lexemes where the parts of a node end. -/
def Level (ls ls' : List Lexeme) : Prop :=
  Joins .free ls ls' ∨ Trails ls ls'

/-- Lexemes inside a text, which may be that of code on the line of a tag. -/
def Texts (t : Bool) (ls ls' : List Lexeme) : Prop :=
  Joins .region ls ls' ∨ Joins (.loose t) ls ls'

/-- Lexemes behind such a text. -/
def Past (t : Bool) (ls ls' : List Lexeme) : Prop :=
  Level ls ls' ∨ t = false ∧ Lags ls ls'

/-- Two cursors whose lexemes are related. Behind the last ones the templates end. -/
structure Cursor.Ahead (R : List Lexeme → List Lexeme → Prop) (c d : Cursor) : Prop where
  rests : R c.rest d.rest
  left : c.failure = none
  right : d.failure = none

/-- Two cursors in front of the same lexeme, none of which is at the blank line. -/
structure Cursor.Meets (h : Hold) (c d : Cursor) : Prop where
  token : d.next.token = c.next.token
  here : c.Ahead (Joins h) d
  take : c.take.Ahead (Joins (h.after c.next.token)) d.take

/-- What two cursors can look at where a blank line may be ahead of the second one. -/
inductive Cursor.Fork (h : Hold) (c d : Cursor) : Prop
  | same (hsame : c.Ahead SameTokens d)
  | both (hc : c.rest = c.next :: c.take.rest) (hd : d.rest = d.next :: d.take.rest)
      (htoken : d.next.token = c.next.token) (hfits : h.Fits c.next c.take.rest)
      (htake : c.take.Ahead (Inserts (h.after c.next.token)) d.take)
  | blank (hx : d.next.token = if h.isOpen then .indent else .newline)
      (hb : c.next.kind = .newline ∨ c.next.kind = .indent ∨ c.next.kind = .outdent)
      (hfits : h.Fits c.next c.take.rest) (hbroken : ∀ t, h ≠ .broken t)
      (hcode : ∀ t, h = .code t → c.next.kind = .newline → c.take.next.kind ≠ .text)
      (hloose : ∀ t, h = .loose t → c.next.kind = .indent →
        t = false ∧ c.take.next.kind ≠ .text)
      (hsame : c.Ahead SameTokens d.take)

variable {c d : Cursor} {R R' : List Lexeme → List Lexeme → Prop}

namespace Cursor

/-- What holds of the next lexeme and of the end holds at a cursor. -/
theorem next_of_head {p : Token.Kind → Prop} (hp : ∀ l ∈ c.rest.head?, p l.kind) (heos : p .eos) :
    p c.next.kind := by
  unfold next
  cases hrest : c.rest with
  | nil => exact heos
  | cons l rest => exact hp l (by rw [hrest]; rfl)

theorem Ahead.goes (hcd : c.Ahead R d) : c.Goes ∧ d.Goes :=
  ⟨fun _ => hcd.left, fun _ => hcd.right⟩

theorem Ahead.mono (hcd : c.Ahead R d) (hR : ∀ ls ls', R ls ls' → R' ls ls') : c.Ahead R' d :=
  ⟨hR _ _ hcd.rests, hcd.left, hcd.right⟩

theorem Ahead.seen (hcd : c.Ahead R d) : c.seen.Ahead R d.seen :=
  ⟨hcd.rests, hcd.left, hcd.right⟩

theorem Ahead.joins (hcd : c.Ahead SameTokens d) (h : Hold) : c.Ahead (Joins h) d :=
  hcd.mono fun _ _ => .inl

theorem Ahead.level (hcd : c.Ahead (Joins .free) d) : c.Ahead Level d :=
  hcd.mono fun _ _ => .inl

theorem Ahead.past (hcd : c.Ahead Level d) (t : Bool) : c.Ahead (Past t) d :=
  hcd.mono fun _ _ => .inl

/-- Cursors with the same tokens ahead take the same one. -/
theorem Ahead.same (hcd : c.Ahead SameTokens d) :
    d.next.token = c.next.token ∧ c.take.Ahead SameTokens d.take := by
  obtain ⟨rest, failure, line, place, spans⟩ := c
  obtain ⟨rest', failure', line', place', spans'⟩ := d
  obtain ⟨hrests, hleft, hright⟩ := hcd
  cases rest with
  | nil =>
    obtain rfl : rest' = [] := List.map_eq_nil_iff.1 hrests
    exact ⟨rfl, rfl, hleft, hright⟩
  | cons l rest =>
    obtain ⟨l', rest', rfl, hl, hrest⟩ := List.map_eq_cons_iff.1 hrests
    exact ⟨hl, hrest, hleft, hright⟩

theorem Ahead.fork (hcd : c.Ahead (Joins h) d) : Cursor.Fork h c d := by
  obtain ⟨rest, failure, line, place, spans⟩ := c
  obtain ⟨rest', failure', line', place', spans'⟩ := d
  obtain ⟨hrests, hleft, hright⟩ := hcd
  rcases hrests with hsame | hinserts
  · exact .same ⟨hsame, hleft, hright⟩
  · dsimp only at hinserts
    cases hinserts with
    | cons hl hfits htail => exact .both rfl rfl hl hfits ⟨htail, hleft, hright⟩
    | blank hx hb hfits hbroken hcode hloose htokens =>
      refine .blank hx hb hfits hbroken (fun t hh hnewline => ?_) (fun t hh hindent => ?_)
        ⟨htokens, hleft, hright⟩
      · exact next_of_head (p := (· ≠ .text)) (hcode t hh hnewline) nofun
      · obtain ⟨ht, htext⟩ := hloose t hh hindent
        exact ⟨ht, next_of_head (p := (· ≠ .text)) htext nofun⟩

/-- Where a line starts, there is neither a break nor an indent. -/
theorem kind_of_starts (hfits : h.Fits c.next c.take.rest)
    (hkind : c.next.kind = (if h.isOpen then .newline else .indent)) :
    c.take.next.kind ≠ .newline ∧ c.take.next.kind ≠ .indent := by
  have hstarts := hfits.starts hkind
  refine next_of_head (p := fun kind => kind ≠ .newline ∧ kind ≠ .indent) ?_ ⟨nofun, nofun⟩
  intro m hm
  have hinline := hstarts m hm
  constructor <;> intro hkind <;> rw [hkind] at hinline <;> cases hinline

theorem Ahead.meets (hcd : c.Ahead SameTokens d) (h : Hold) : c.Meets h d :=
  ⟨hcd.same.1, hcd.joins _, hcd.same.2.joins _⟩

theorem Meets.seen (hcd : Meets h c d) : Meets h c.seen d.seen := by
  obtain ⟨htoken, hhere, htake⟩ := hcd
  refine ⟨?_, hhere.seen, ?_⟩
  · rwa [next_seen, next_seen]
  · rwa [next_seen, take_seen, take_seen]

theorem Meets.kind (hcd : Meets h c d) : d.next.kind = c.next.kind :=
  congrArg Token.kind hcd.token

theorem Ahead.kind (hcd : c.Ahead SameTokens d) : d.next.kind = c.next.kind :=
  congrArg Token.kind hcd.same.1

theorem Meets.take_free (hcd : Meets .free c d) (hc : c.next.kind.isPlain = true) :
    c.take.Ahead (Joins .free) d.take := by
  have htake := hcd.take
  rwa [Hold.free_after hc] at htake

/-- Outside of regions the cursors meet, or the blank line is a newline in front of a break. -/
theorem Ahead.meets_or_break (hcd : c.Ahead (Joins h) d) (hclosed : h.isOpen = false) :
    Meets h c d ∨ d.next.kind = .newline ∧ c.next.kind.isInline = false ∧
      c.Ahead SameTokens d.take := by
  cases hcd.fork with
  | same hsame => exact .inl (hsame.meets h)
  | both _ _ htoken _ htake => exact .inl ⟨htoken, hcd, htake.mono fun _ _ => .inr⟩
  | blank hx hb _ _ _ _ hsame =>
    rw [hclosed] at hx
    refine .inr ⟨congrArg Token.kind hx, ?_, hsame⟩
    rcases hb with hb | hb | hb <;> rw [hb] <;> rfl

/-- Outside of regions the cursors meet inside a line. -/
theorem Ahead.meets_of_inline (hcd : c.Ahead (Joins h) d) (hclosed : h.isOpen = false)
    (hc : c.next.kind.isInline = true) : Meets h c d := by
  refine (hcd.meets_or_break hclosed).resolve_right fun ⟨_, hbreak, _⟩ => ?_
  rw [hc] at hbreak
  cases hbreak

/-- Between nodes the cursors meet, or the second one has a newline more ahead. -/
theorem Ahead.meets_or (hcd : c.Ahead Level d) :
    Meets .free c d ∨ d.next.kind = .newline ∧ c.Ahead SameTokens d.take := by
  obtain ⟨hjoins | ⟨x, ms, hrest, hx, hsame⟩, hleft, hright⟩ := hcd
  · have hhere : c.Ahead (Joins .free) d := ⟨hjoins, hleft, hright⟩
    exact (hhere.meets_or_break rfl).imp_right fun ⟨hd, _, hsame⟩ => ⟨hd, hsame⟩
  · refine .inr ⟨?_, ?_, hleft, hright⟩
    · rw [next, hrest]
      exact hx
    · show SameTokens c.rest (d.rest.drop 1)
      rwa [hrest]

/-- A second cursor with a newline more ahead is between nodes. -/
theorem Ahead.trails (hcd : c.Ahead SameTokens d.take) (hd : d.next.kind = .newline) :
    c.Ahead Level d := by
  have hrest := rest_eq_of_next (c := d) (by rw [hd]; decide)
  exact ⟨.inr ⟨d.next, d.take.rest, hrest, hd, hcd.rests⟩, hcd.left, hcd.right⟩

/-- A second cursor with a newline and an indent more ahead is behind a text. -/
theorem Ahead.lags (hcd : c.Ahead SameTokens d.take.take) (hd : d.next.kind = .newline)
    (hd' : d.take.next.kind = .indent) : c.Ahead (Past false) d := by
  have hrest := rest_eq_of_next (c := d) (by rw [hd]; decide)
  rw [rest_eq_of_next (c := d.take) (by rw [hd']; decide)] at hrest
  exact ⟨.inr ⟨rfl, d.next, d.take.next, d.take.take.rest, hrest, hd, hd', hcd.rests⟩, hcd.left,
    hcd.right⟩

theorem Ahead.level_or_lags (hcd : c.Ahead (Past t) d) :
    c.Ahead Level d ∨ t = false ∧ d.next.kind = .newline ∧ d.take.next.kind = .indent ∧
      c.Ahead SameTokens d.take.take := by
  obtain ⟨hlevel | ⟨ht, x, b, ms, hrest, hx, hb, hsame⟩, hleft, hright⟩ := hcd
  · exact .inl ⟨hlevel, hleft, hright⟩
  · have hrest' : d.take.rest = b :: ms := congrArg (List.drop 1) hrest
    refine .inr ⟨ht, ?_, ?_, ?_, hleft, hright⟩
    · rw [next, hrest]
      exact hx
    · rw [next, hrest']
      exact hb
    · show SameTokens c.rest (d.take.rest.drop 1)
      rwa [hrest']

/-- Cursors in front of the same lexeme, which is no indent, are between nodes where they are
so behind it. -/
theorem Ahead.level_of_take (htake : c.take.Ahead (Inserts (Hold.free.after c.next.token)) d.take)
    (hc : c.rest = c.next :: c.take.rest) (hd : d.rest = d.next :: d.take.rest)
    (htoken : d.next.token = c.next.token) (hindent : c.next.kind ≠ .indent) : c.Ahead Level d := by
  refine ⟨.inl (.inr ?_), htake.left, htake.right⟩
  rw [hc, hd]
  exact .cons htoken (.of_closed (h := .free) (fun heq => absurd heq hindent) rfl rfl) htake.rests

/-- On the line of a tag nothing lags. -/
theorem Ahead.level_of_past (hcd : c.Ahead (Past true) d) : c.Ahead Level d :=
  hcd.level_or_lags.resolve_right fun ⟨ht, _⟩ => by cases ht

theorem Ahead.untagged (hcd : c.Ahead (Joins .tagged) d) (hc : c.next.kind ≠ .code) :
    c.Ahead (Joins .free) d := by
  refine ⟨hcd.rests.imp_right fun hinserts => hinserts.untagged ?_, hcd.left, hcd.right⟩
  intro l hl
  rwa [next, List.headD_eq_head?_getD, Option.mem_def.1 hl] at hc

/-- While something is open, the blank line is an indent. -/
theorem Ahead.kind_or_indent (hcd : c.Ahead (Joins h) d) (hopen : h.isOpen = true) :
    d.next.kind = c.next.kind ∨ d.next.kind = .indent := by
  cases hcd.fork with
  | same hsame => exact .inl hsame.kind
  | both _ _ htoken => exact .inl (congrArg Token.kind htoken)
  | blank hx =>
    rw [hopen] at hx
    exact .inr (congrArg Token.kind hx)

/-- Where text is read and something is open, both cursors are inside a text. -/
theorem Ahead.texts (hcd : c.Ahead (Joins h) d) (hopen : h.isOpen = true)
    (hc : isTextual c.next.kind = true) : c.Ahead (Texts t) d ∧ isTextual d.next.kind = true := by
  refine ⟨⟨.inl (hcd.rests.imp_right fun hinserts => ?_), hcd.left, hcd.right⟩, ?_⟩
  · rw [rest_eq_of_next (c := c) (by intro heos; rw [heos] at hc; cases hc)] at hinserts ⊢
    exact hinserts.toRegion hopen hc
  · rcases hcd.kind_or_indent hopen with hd | hd
    · rwa [hd]
    · rw [hd]
      rfl

end Cursor

end Reading

end Offside
