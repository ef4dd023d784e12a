import Offside.Proofs.Outline.Scanning
import Offside.Proofs.Token.Seam

/-!
# What takes the lines below

A blank line is a newline, or an indent inside of a verbatim region. `Hold` is what one has
to know about the tokens in front of it to tell, and to tell whether text is being read
there: hidden code that ends in a backslash also takes text that is not in its region, if
there is no line in its region and markup follows at the level of the code.

`Holding` relates holds to the scanner, and `Fits` is what a hold says about the lexeme that
follows. `Severs` says where a blank line would come between such code, its text and what is
indented below that text, and `Inserts` relates the lexemes of a template to those with a
blank line that severs nothing.
-/

set_option autoImplicit false

namespace Offside

open Offside.Character

/-- What takes the lines below, by the tokens in front of them. -/
inductive Hold where
  /-- Nothing takes them as they are. -/
  | free
  /-- Behind a tag, on its line. -/
  | tagged
  /-- Behind the name of a filter, whose attribute list may follow. -/
  | filter
  /-- Behind a hidden comment. -/
  | comment
  /-- Behind hidden code that ends in a backslash, which may be on the line of a tag. -/
  | code (tagged : Bool)
  /-- Inside a verbatim region. -/
  | region
  /-- Behind such code and the line break that ends its region. -/
  | broken (tagged : Bool)
  /-- Inside text that such code takes at its own level. -/
  | loose (tagged : Bool)
deriving DecidableEq, Repr

namespace Hold

/-- Whether a verbatim region is open. -/
def isOpen : Hold → Bool
  | filter | comment | code _ | region => true
  | free | tagged | broken _ | loose _ => false

/-- Whether the line in front has ended. -/
def endsLine : Hold → Bool
  | comment | code _ => true
  | _ => false

/-- The hold behind one more token. -/
def after (h : Hold) : Token → Hold
  | .tag _ | .idName _ | .className _ => tagged
  | .attributes _ _ => if h = filter then region else tagged
  | .filter _ => filter
  | .pipe => region
  | .comment _ buffered => if buffered then free else comment
  | .code source buffered =>
    if (Token.code source buffered).opensVerbatim then code (h = tagged) else free
  | .text _ =>
    match h with
    | free | tagged => free
    | broken t | loose t => loose t
    | filter | comment | code _ | region => region
  | .indent =>
    match h with
    | free | tagged | broken _ => free
    | loose t => loose t
    | filter | comment | code _ | region => region
  | .newline =>
    match h with
    | code t => broken t
    | _ => free
  | .doctype _ | .outdent | .eos => free

variable {h : Hold} {token : Token}

/-- Only wrappers open a region. -/
theorem isOpen_after (hopens : token.opensVerbatim = false)
    (hclosed : h.isOpen = false) : (h.after token).isOpen = false := by
  cases token with
  | filter name | pipe => cases hopens
  | comment body buffered =>
    cases buffered with
    | false => cases hopens
    | true => rfl
  | code source buffered => rw [after, if_neg (by simp [hopens])]; rfl
  | attributes raw as => cases h <;> first | rfl | cases hclosed
  | text value | indent | newline => cases h <;> first | rfl | cases hclosed
  | _ => rfl

theorem isOpen_after_of_opensVerbatim (h : Hold)
    (hopens : token.opensVerbatim = true) : (h.after token).isOpen = true := by
  cases token with
  | filter name | pipe => rfl
  | comment body buffered =>
    cases buffered with
    | false => rfl
    | true => cases hopens
  | code source buffered => rw [after, if_pos hopens]; rfl
  | _ => cases hopens

/-- Text and indents stay inside a region. -/
theorem after_of_isOpen (hopen : h.isOpen = true)
    (htoken : token.kind = .text ∨ token.kind = .indent) : h.after token = region := by
  cases token with
  | text value | indent => cases h <;> first | rfl | cases hopen
  | _ => rcases htoken with htoken | htoken <;> cases htoken

/-- Only code and comments end their lines. -/
theorem kind_of_endsLine (hends : (h.after token).endsLine = true) :
    token.kind = .code ∨ token.kind = .comment := by
  cases token with
  | comment body buffered => exact .inr rfl
  | code source buffered => exact .inl rfl
  | attributes raw as =>
    rw [after] at hends
    split at hends <;> cases hends
  | text value | indent | newline => cases h <;> cases hends
  | _ => cases hends

theorem after_eq_broken {t : Bool} (hafter : h.after token = broken t) :
    h = code t ∧ token.kind = .newline := by
  cases token with
  | newline =>
    cases h with
    | code t' =>
      obtain rfl : t' = t := by simpa [after] using hafter
      exact ⟨rfl, rfl⟩
    | _ => cases hafter
  | comment body buffered => cases buffered <;> cases hafter
  | code source buffered | attributes raw as =>
    rw [after] at hafter
    split at hafter <;> cases hafter
  | text value | indent => cases h <;> cases hafter
  | _ => cases hafter

end Hold

/-! ### Readers that end a line -/

namespace Token

variable {cs : List Char} {t : Token}

theorem endsLine_of_readLine {body : List Char} {r : Rest cs}
    (h : readLine cs = some (body, r)) : Outline.EndsLine r.1 := by
  unfold readLine at h
  split at h
  · cases h
  · next c cs =>
    split at h
    · obtain ⟨-, rfl⟩ := Prod.mk.inj (Option.some.inj h)
      intro d hd
      have hhead := List.head?_dropWhile_not isInline cs
      rw [show cs.dropWhile isInline = (Rest.afterRun isInline c cs).1 from rfl,
        Option.mem_def.1 hd] at hhead
      simpa [isInline] using hhead
    · cases h

theorem endsLine_of_readCode {r : Rest cs}
    (h : readCode cs = some (t, r)) : Outline.EndsLine r.1 := by
  unfold readCode at h
  split at h
  · obtain ⟨⟨body, rest⟩, hline, heq⟩ := Option.map_eq_some_iff.1 h
    have hends := endsLine_of_readLine hline
    obtain ⟨-, rfl⟩ := Prod.mk.inj heq
    exact hends
  · split at h
    · obtain ⟨⟨body, rest⟩, hline, heq⟩ := Option.map_eq_some_iff.1 h
      have hends := endsLine_of_readLine hline
      obtain ⟨-, rfl⟩ := Prod.mk.inj heq
      exact hends
    · cases h
  · cases h

theorem endsLine_of_readComment {r : Rest cs}
    (h : readComment cs = some (t, r)) : Outline.EndsLine r.1 := by
  unfold readComment at h
  split at h
  · next inner hinner =>
    obtain ⟨-, rfl⟩ := Prod.mk.inj (Option.some.inj h)
    intro d hd
    have hhead := List.head?_dropWhile_not (· ≠ '\n')
      (if inner.head? == some '!' then inner.tail else inner)
    rw [show (List.dropWhile _ _).head? = some d from hd] at hhead
    simpa using hhead
  · cases h

/-- Nothing follows code or a comment on its line. -/
theorem endsLine_of_read {r : Rest cs} (h : read cs = some (t, r))
    (ht : t.kind = .code ∨ t.kind = .comment) : Outline.EndsLine r.1 := by
  obtain ⟨reader, hmem, h⟩ := List.exists_of_findSome?_eq_some h
  simp only [readers, List.mem_cons, List.not_mem_nil, or_false] at hmem
  have hne : ∀ kind, ReadsKind reader kind → kind ≠ .code → kind ≠ .comment →
      Outline.EndsLine r.1 := by
    intro kind hreads hcode hcomment
    rw [hreads h] at ht
    exact (ht.elim hcode hcomment).elim
  obtain rfl | rfl | rfl | rfl | rfl | rfl | rfl | rfl | rfl | rfl := hmem
  · exact hne _ reads_doctype (by decide) (by decide)
  · exact hne _ reads_tag (by decide) (by decide)
  · exact hne _ reads_pipe (by decide) (by decide)
  · exact hne _ reads_markup (by decide) (by decide)
  · exact hne _ reads_filter (by decide) (by decide)
  · exact endsLine_of_readCode h
  · exact endsLine_of_readComment h
  · exact hne _ reads_idName (by decide) (by decide)
  · exact hne _ reads_className (by decide) (by decide)
  · exact hne _ reads_attributes (by decide) (by decide)

theorem kind_of_readInlineText {last : Option Kind} {r : Rest cs}
    (h : readInlineText last cs = some (t, r)) : t.kind = .text := by
  unfold readInlineText at h
  split at h
  · obtain ⟨_, -, heq⟩ := Option.map_eq_some_iff.1 h
    rw [← (Prod.mk.inj heq).1]
    rfl
  · cases h

end Token

/-! ### Holds and the scanner -/

/-- What a hold says about the lexeme that follows and those behind it. -/
structure Hold.Fits (h : Hold) (l : Lexeme) (ls : List Lexeme) : Prop where
  line : h.endsLine = true → l.kind.isInline = false
  /-- A region is not ended by a blank line, and a block does not start with one. -/
  starts : l.kind = (if h.isOpen then .newline else .indent) →
    ∀ m ∈ ls.head?, m.kind.isInline = true

namespace Scanner

variable {s s' : Scanner} {h : Hold} {l : Lexeme}

/-- A scanner in front of which there is a hold. -/
structure Holding (s : Scanner) (h : Hold) : Prop where
  region : s.rest ≠ [] → s.region.isSome = h.isOpen
  deferred : s.deferred ≠ [] → s.region = none
  filter : s.last = some .filter → h = .filter
  line : h.endsLine = true → Outline.EndsLine s.rest
  /-- The line behind a region is not blank. -/
  broken : ∀ t, h = .broken t → s.rest.head? ≠ some '\n'

theorem Holding.of_free (hregion : s.rest ≠ [] → s.region = none) (hdeferred : s.deferred = [])
    (hlast : s.last ≠ some .filter) : s.Holding .free where
  region := fun hne => congrArg Option.isSome (hregion hne)
  deferred := fun hne => absurd hdeferred hne
  filter := fun hfilter => absurd hfilter hlast
  line := fun hends => absurd hends (by decide)
  broken := by simp

/-- A line break leads to a hold behind which a line may start. -/
theorem Holding.toLine {token : Token} {s' : Scanner} (hkind : s'.last = some token.kind)
    (hne : token.kind = .newline ∨ token.kind = .indent ∨ token.kind = .outdent)
    (hregion : s'.rest ≠ [] → s'.region.isSome = (h.after token).isOpen)
    (hdeferred : s'.deferred ≠ [] → s'.region = none)
    (hbroken : ∀ t, h.after token = .broken t → s'.rest.head? ≠ some '\n') :
    s'.Holding (h.after token) where
  region := hregion
  deferred := hdeferred
  filter := by
    intro hfilter
    rw [hkind] at hfilter
    rw [Option.some.inj hfilter] at hne
    simp at hne
  line := by
    intro hends
    rcases Hold.kind_of_endsLine hends with hkind | hkind <;> simp [hkind] at hne
  broken := hbroken

theorem kind_of_readVerbatim {cs : List Char} {token : Token} {r : Rest cs}
    (hread : s.readVerbatim cs = some (token, r)) : token.kind = .text := by
  unfold readVerbatim at hread
  split at hread
  · cases hread
  · split at hread
    · cases hread
    · obtain ⟨_, -, heq⟩ := Option.map_eq_some_iff.1 hread
      rw [← (Prod.mk.inj heq).1]
      rfl

/-- A token inside a line leads to the hold behind it. -/
theorem Holding.token {c : Char} {cs : List Char} {token : Token} {rest : Rest s.rest}
    (hs : s.Holding h) (hdeferred : s.deferred = []) (hrest : s.rest = c :: cs) (hc : c ≠ '\n')
    (hread : s.readInline s.rest = some (token, rest)) :
    ({ s with rest := rest.1 }.emit ⟨token, s.line⟩).2.Holding (h.after token) where
  region := by
    intro _
    have hopen := hs.region (by simp [hrest])
    show (if token.opensVerbatim then some _ else s.region).isSome = _
    split
    · next hopens => exact (h.isOpen_after_of_opensVerbatim hopens).symm
    · next hopens =>
      have hopens : token.opensVerbatim = false := by simpa using hopens
      cases hregion : s.region with
      | none =>
        rw [hregion] at hopen
        exact (Hold.isOpen_after hopens hopen.symm).symm
      | some region =>
        rw [hregion] at hopen
        -- Inside a region there is only text, and the attribute list of a filter.
        rcases readInline_of_region hregion hrest hc hread with hkind | ⟨hkind, -, hlast⟩
        · rw [Hold.after_of_isOpen hopen.symm (.inl hkind)]
          rfl
        · rw [hs.filter hlast]
          cases token with
          | attributes raw as => rfl
          | _ => cases hkind
  deferred := fun hne => absurd hdeferred hne
  filter := by
    intro hfilter
    have hkind : token.kind = .filter := Option.some.inj hfilter
    cases token with
    | filter name => rfl
    | _ => cases hkind
  line := by
    intro hends
    have hkind := Hold.kind_of_endsLine hends
    -- Neither is read as text.
    unfold readInline at hread
    rcases Option.or_eq_some_iff.1 hread with hread | ⟨-, hread⟩
    · have htext := kind_of_readVerbatim hread
      rw [htext] at hkind
      simp at hkind
    · rcases Option.or_eq_some_iff.1 hread with hread | ⟨-, hread⟩
      · exact Token.endsLine_of_read hread hkind
      · have htext := Token.kind_of_readInlineText hread
        rw [htext] at hkind
        simp at hkind
  broken := by
    intro t hbroken
    exact absurd (Hold.after_eq_broken hbroken).2 (kind_ne_of_readInline hread rfl)

/-- Every step leads to the hold behind its token. -/
theorem Holding.step (hsound : s.Sound) (hs : s.Holding h) (hstep : Step s (.ok l) s') :
    s'.Holding (h.after l.token) := by
  -- Where a line is compared with the levels, no region is open behind the break.
  have hclosed : ∀ {token : Token}, token.opensVerbatim = false → s.region = none → s.rest ≠ [] →
      (h.after token).isOpen = false := by
    intro token hopens hregion hne
    have hopen := hs.region hne
    rw [hregion] at hopen
    exact Hold.isOpen_after hopens hopen.symm
  -- Inside a region, an indent leaves it open.
  have hindent : ∀ {region : Region}, s.region = some region → s.rest ≠ [] →
      h.after .indent = .region := by
    intro region hregion hne
    have hopen := hs.region hne
    rw [hregion] at hopen
    exact Hold.after_of_isOpen hopen.symm (.inr rfl)
  cases hstep with
  | deferred l ls hdeferred =>
    obtain rfl := hsound.deferred l (by simp [hdeferred])
    have hregion := hs.deferred (by simp [hdeferred])
    exact .toLine rfl (by simp [Token.kind]) (fun _ => congrArg Option.isSome hregion)
      (fun _ => hregion) (by rintro t ⟨⟩)
  | close width opened hdeferred hrest hopened =>
    exact .toLine rfl (by simp [Token.kind]) (fun hne => absurd hrest hne)
      (fun hne => absurd hdeferred hne) (by rintro t ⟨⟩)
  | eos hdeferred hrest hopened =>
    exact .of_free (fun hne => absurd hrest hne) hdeferred (by rintro ⟨⟩)
  | token c cs token rest hdeferred hrest hc hread => exact hs.token hdeferred hrest hc hread
  | blank cs hdeferred hrest hregion hblank =>
    have hopen := hs.region (by simp [hrest])
    rw [hregion] at hopen
    refine .toLine rfl (by simp [Token.kind]) (fun _ => ?_) (fun hne => absurd hdeferred hne) ?_
    · show s.region.isSome = _
      rw [hregion, hclosed rfl hregion (by simp [hrest])]
      rfl
    · intro t hbroken
      rw [(Hold.after_eq_broken hbroken).1] at hopen
      cases hopen
  | verbatimBlank cs region hdeferred hrest hregion hblank =>
    have hafter := hindent hregion (by simp [hrest])
    refine .toLine rfl (by simp [Token.kind]) (fun _ => ?_) (fun hne => absurd hdeferred hne) ?_
    · show s.region.isSome = _
      rw [hregion, hafter]
      rfl
    · simp [hafter]
  | verbatimLine cs region hdeferred hrest hregion hblank hwidth =>
    have hafter := hindent hregion (by simp [hrest])
    refine .toLine rfl (by simp [Token.kind]) (fun _ => ?_) (fun hne => absurd hdeferred hne) ?_
    · rw [hafter]
      rfl
    · simp [hafter]
  | same cs hdeferred hrest hregion hblank hwidth =>
    refine .toLine rfl (by simp [Token.kind]) (fun _ => ?_) (fun hne => absurd hdeferred hne) ?_
    · cases h <;> rfl
    · intro _ _ hhead
      rw [isBlankLine] at hblank
      simp only [rest_toLine] at hhead
      simp [hhead] at hblank
  | deeper cs hdeferred hrest hregion hblank hwidth =>
    have hnone : s.region = none := by
      cases hsome : s.region with
      | none => rfl
      | some region =>
        have hle := hregion region hsome
        rw [hsound.region region hsome (by simp [hrest])] at hle
        omega
    refine .toLine rfl (by simp [Token.kind]) (fun _ => ?_) (fun hne => absurd hdeferred hne) ?_
    · exact (hclosed rfl hnone (by simp [hrest])).symm
    · cases h <;> simp [Hold.after]
  | shallower cs closed indents hdeferred hrest hregion hblank hwidth hclose =>
    exact .toLine rfl (by simp [Token.kind]) (fun _ => rfl) (fun _ => rfl) (by rintro t ⟨⟩)

/-- Inside a line the next lexeme is one that stands inside a line. -/
theorem isInline_head_tape {c : Char} {cs : List Char} (hdeferred : s.deferred = [])
    (hrest : s.rest = c :: cs) (hc : c ≠ '\n') (hfailure : s.tape.failure = none) :
    ∀ m ∈ s.tape.lexemes.head?, m.kind.isInline = true := by
  intro m hm
  have hnext := next_of_inline hdeferred hrest hc
  rw [Reader.outcome] at hnext
  cases hread : s.readInline s.rest with
  | none =>
    rw [hread] at hnext
    rw [tape_of_error hnext] at hfailure
    cases hfailure
  | some out =>
    obtain ⟨token, rest⟩ := out
    rw [hread] at hnext
    have hinline := isInline_of_readInline hread
    rw [tape_of_ok hnext (kind_ne_of_readInline hread rfl), Tape.lexemes_cons] at hm
    obtain rfl := Option.some.inj hm
    exact hinline

/-- The next lexeme fits the hold in front of it. -/
theorem Holding.fits (hsound : s.Sound) (hs : s.Holding h) (htidy : Tidy s.rest)
    (hnext : s.next = (.ok l, s')) (hfailure : s'.tape.failure = none) :
    h.Fits l s'.tape.lexemes := by
  have hstep := Step.of_next hnext
  -- Lexemes that were put aside are outdents.
  have houtdent : ∀ ls, s.deferred = l :: ls → l.kind = .outdent := by
    intro ls hdeferred
    rw [hsound.deferred l (by simp [hdeferred])]
    rfl
  refine ⟨?_, ?_⟩
  · intro hline
    have hends := hs.line hline
    cases hstep with
    | token c cs token rest hdeferred hrest hc hread =>
      exact absurd (hends c (by rw [hrest]; rfl)) hc
    | deferred l ls hdeferred =>
      rw [houtdent ls hdeferred]
      rfl
    | _ => rfl
  · intro hkind
    -- Behind the break there is a line which is not blank.
    have hline : ∀ cs, s.rest = '\n' :: cs → isBlankLine cs = false → s'.deferred = [] →
        s'.rest = cs.dropWhile isSpace → ∀ m ∈ s'.tape.lexemes.head?, m.kind.isInline = true := by
      intro cs hrest hblank hdeferred hrest'
      rw [hrest] at htidy
      obtain ⟨c, cs', hcs⟩ := List.exists_cons_of_ne_nil htidy.dropWhile_ne_nil
      have hc : c ≠ '\n' := by
        rintro rfl
        simp [isBlankLine, hcs] at hblank
      exact isInline_head_tape hdeferred (hrest'.trans hcs) hc hfailure
    cases hstep with
    | deferred l ls hdeferred =>
      rw [houtdent ls hdeferred] at hkind
      split at hkind <;> cases hkind
    | token c cs token rest hdeferred hrest hc hread =>
      split at hkind <;> exact absurd hkind (kind_ne_of_readInline hread rfl)
    | blank cs hdeferred hrest hregion hblank =>
      have hopen := hs.region (by simp [hrest])
      rw [hregion] at hopen
      rw [← hopen] at hkind
      cases hkind
    | verbatimBlank cs region hdeferred hrest hregion
    | verbatimLine cs region hdeferred hrest hregion =>
      have hopen := hs.region (by simp [hrest])
      rw [hregion] at hopen
      rw [← hopen] at hkind
      cases hkind
    | same cs hdeferred hrest hregion hblank => exact hline cs hrest hblank hdeferred rfl
    | deeper cs hdeferred hrest hregion hblank => exact hline cs hrest hblank hdeferred rfl
    | _ => split at hkind <;> cases hkind

end Scanner

/-! ### Blank lines among lexemes -/

theorem Lexeme.token_of_newline {l : Lexeme} (hl : l.kind = .newline) : l.token = .newline := by
  obtain ⟨token, line⟩ := l
  cases token with
  | newline => rfl
  | _ => cases hl

theorem Lexeme.token_of_indent {l : Lexeme} (hl : l.kind = .indent) : l.token = .indent := by
  obtain ⟨token, line⟩ := l
  cases token with
  | indent => rfl
  | _ => cases hl

/-- Whether a lexeme is hidden code that takes the text below it. -/
def Lexeme.takesText (l : Lexeme) : Bool :=
  l.kind = .code && l.token.opensVerbatim

/-- Hidden code with text that it takes at its own level. -/
def LooseText : List Lexeme → Prop
  | code :: newline :: text :: texts =>
    code.takesText = true ∧ newline.kind = .newline ∧ text.kind = .text ∧
      ∀ l ∈ texts, l.kind = .text ∨ l.kind = .indent
  | _ => False

instance : DecidablePred LooseText
  | _ :: _ :: _ :: _ => inferInstanceAs (Decidable (_ ∧ _ ∧ _ ∧ _))
  | [] | [_] | [_, _] => inferInstanceAs (Decidable False)

/-- Whether a lexeme of this kind stands in front of the code on the line of a tag. -/
def Token.Kind.isTagged : Token.Kind → Bool
  | .tag | .idName | .className | .attributes => true
  | _ => false

/-- Lexemes, from hidden code or what is in front of it on, that a blank line in front of the
lexemes `below` would part from something. -/
def Parted (below : List Lexeme) : List Lexeme → Prop
  | [] => False
  -- The code from the text that it takes at its own level.
  | [code] => code.takesText = true ∧ (below.map (·.kind)).take 2 = [.newline, .text]
  -- Such text from more text, or from an indent, which would be that of the tag's block.
  | l :: ls =>
    LooseText (l :: ls) ∧ (below.map (·.kind)).take 2 = [.indent, .text] ∨
      l.kind.isTagged = true ∧ LooseText ls ∧ (below.map (·.kind)).take 1 = [.indent]

instance (below : List Lexeme) : DecidablePred (Parted below)
  | [] => inferInstanceAs (Decidable False)
  | [_] => inferInstanceAs (Decidable (_ ∧ _))
  | _ :: _ :: _ => inferInstanceAs (Decidable (_ ∨ _))

/-- A blank line between two lists of lexemes would sever hidden code from text that it takes
at its own level, or that text from an indent that is read as part of it. -/
def Severs (above below : List Lexeme) : Prop :=
  ∃ ls ∈ above.tails, Parted below ls

instance (above below : List Lexeme) : Decidable (Severs above below) :=
  inferInstanceAs (Decidable (∃ ls ∈ above.tails, _))

namespace Hold

/-- The hold behind some lexemes. -/
def behind (h : Hold) (ls : List Lexeme) : Hold :=
  ls.foldl (fun h l => h.after l.token) h

theorem behind_concat (h : Hold) (ls : List Lexeme) (l : Lexeme) :
    h.behind (ls ++ [l]) = (h.behind ls).after l.token :=
  List.foldl_append

variable {h : Hold}

theorem after_eq_tagged {token : Token} (hafter : h.after token = tagged) :
    token.kind.isTagged = true := by
  cases token with
  | tag name | idName name | className name | attributes raw as => rfl
  | comment body buffered => cases buffered <;> cases hafter
  | code source buffered =>
    rw [after] at hafter
    split at hafter <;> cases hafter
  | text value | indent | newline => cases h <;> cases hafter
  | _ => cases hafter

theorem after_eq_code {l : Lexeme} {t : Bool} (hafter : h.after l.token = code t) :
    l.takesText = true ∧ (t = true → h = tagged) := by
  obtain ⟨token, line⟩ := l
  cases token with
  | code source buffered =>
    rw [after] at hafter
    split at hafter
    · next hopens =>
      refine ⟨by simp [Lexeme.takesText, Lexeme.kind, Token.kind, hopens], ?_⟩
      rintro rfl
      simpa using hafter
    · cases hafter
  | comment body buffered => cases buffered <;> cases hafter
  | attributes raw as =>
    rw [after] at hafter
    split at hafter <;> cases hafter
  | text value | indent | newline => cases h <;> cases hafter
  | _ => cases hafter

theorem after_eq_loose {token : Token} {t : Bool} (hafter : h.after token = loose t) :
    h = broken t ∧ token.kind = .text ∨
      h = loose t ∧ (token.kind = .text ∨ token.kind = .indent) := by
  cases token with
  | text value | indent => cases h <;> simp [after, Token.kind] at hafter ⊢ <;> exact hafter
  | comment body buffered => cases buffered <;> cases hafter
  | code source buffered | attributes raw as =>
    rw [after] at hafter
    split at hafter <;> cases hafter
  | newline => cases h <;> cases hafter
  | _ => cases hafter

variable {ls : List Lexeme} {t : Bool}

theorem exists_of_behind_tagged (h : free.behind ls = tagged) :
    ∃ front l, ls = front ++ [l] ∧ l.kind.isTagged = true := by
  rcases List.eq_nil_or_concat ls with rfl | ⟨front, l, rfl⟩
  · cases h
  · rw [List.concat_eq_append] at h ⊢
    rw [behind_concat] at h
    exact ⟨front, l, rfl, after_eq_tagged h⟩

theorem exists_of_behind_code (h : free.behind ls = code t) :
    ∃ front l, ls = front ++ [l] ∧ l.takesText = true ∧
      (t = true → free.behind front = tagged) := by
  rcases List.eq_nil_or_concat ls with rfl | ⟨front, l, rfl⟩
  · cases h
  · rw [List.concat_eq_append] at h ⊢
    rw [behind_concat] at h
    exact ⟨front, l, rfl, after_eq_code h⟩

theorem exists_of_behind_broken (h : free.behind ls = broken t) :
    ∃ front l n, ls = front ++ [l, n] ∧ l.takesText = true ∧ n.kind = .newline ∧
      (t = true → free.behind front = tagged) := by
  rcases List.eq_nil_or_concat ls with rfl | ⟨front, n, rfl⟩
  · cases h
  · rw [List.concat_eq_append] at h ⊢
    rw [behind_concat] at h
    obtain ⟨hcode, hnewline⟩ := after_eq_broken h
    obtain ⟨front, l, rfl, hl, hfront⟩ := exists_of_behind_code hcode
    exact ⟨front, l, n, by simp, hl, hnewline, hfront⟩

theorem exists_of_behind_loose (h : free.behind ls = loose t) :
    ∃ front taken, ls = front ++ taken ∧ LooseText taken ∧
      (t = true → free.behind front = tagged) := by
  induction ls using List.reverseRecOn with
  | nil => cases h
  | append_singleton ls m ih =>
    rw [behind_concat] at h
    rcases after_eq_loose h with ⟨hbroken, hm⟩ | ⟨hloose, hm⟩
    · obtain ⟨front, l, n, rfl, hl, hn, hfront⟩ := exists_of_behind_broken hbroken
      exact ⟨front, [l, n, m], by simp, ⟨hl, hn, hm, nofun⟩, hfront⟩
    · obtain ⟨front, taken, rfl, htaken, hfront⟩ := ih hloose
      refine ⟨front, taken ++ [m], by simp, ?_, hfront⟩
      rcases taken with _ | ⟨l, _ | ⟨n, _ | ⟨text, texts⟩⟩⟩
      · cases htaken
      · cases htaken
      · cases htaken
      · obtain ⟨hl, hn, htext, htexts⟩ := htaken
        refine ⟨hl, hn, htext, ?_⟩
        intro m' hm'
        rcases List.mem_append.1 hm' with hm' | hm'
        · exact htexts m' hm'
        · rw [List.mem_singleton.1 hm']
          exact hm

end Hold

section

variable {above below : List Lexeme} {t : Bool}

theorem severs_of_loose (h : Hold.free.behind above = .loose t)
    (hbelow : (below.map (·.kind)).take 2 = [.indent, .text] ∨
      t = true ∧ (below.map (·.kind)).take 1 = [.indent]) : Severs above below := by
  obtain ⟨front, taken, rfl, htaken, hfront⟩ := Hold.exists_of_behind_loose h
  rcases taken with _ | ⟨l, _ | ⟨n, ls⟩⟩
  · cases htaken
  · cases htaken
  · rcases hbelow with hbelow | ⟨rfl, hbelow⟩
    · exact ⟨l :: n :: ls, (List.mem_tails _ _).2 (List.suffix_append front _),
        .inl ⟨htaken, hbelow⟩⟩
    · obtain ⟨front, m, rfl, hm⟩ := Hold.exists_of_behind_tagged (hfront rfl)
      refine ⟨m :: l :: n :: ls, (List.mem_tails _ _).2 ?_, .inr ⟨hm, htaken, hbelow⟩⟩
      rw [List.append_assoc]
      exact List.suffix_append front _

end

/-- The second lexemes have the tokens of the first ones, and in front of a line break the
token of a blank line, which is not one that severs. -/
inductive Inserts : Hold → List Lexeme → List Lexeme → Prop
  | blank {h : Hold} {x b b' : Lexeme} {ls ls' : List Lexeme}
      (hx : x.token = if h.isOpen then .indent else .newline)
      (hb : b.kind = .newline ∨ b.kind = .indent ∨ b.kind = .outdent) (hfits : h.Fits b ls)
      (hbroken : ∀ t, h ≠ .broken t)
      (hcode : ∀ t, h = .code t → b.kind = .newline → ∀ m ∈ ls.head?, m.kind ≠ .text)
      (hloose : ∀ t, h = .loose t → b.kind = .indent →
        t = false ∧ ∀ m ∈ ls.head?, m.kind ≠ .text)
      (htokens : (b' :: ls').map (·.token) = (b :: ls).map (·.token)) :
    Inserts h (b :: ls) (x :: b' :: ls')
  | cons {h : Hold} {l l' : Lexeme} {ls ls' : List Lexeme} (hl : l'.token = l.token)
      (hfits : h.Fits l ls) (htail : Inserts (h.after l.token) ls ls') :
    Inserts h (l :: ls) (l' :: ls')

end Offside
