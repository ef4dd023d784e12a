import Offside.Proofs.Attribute.Written
import Offside.Proofs.Document.Shape
import Offside.Proofs.Markup.Lines

/-!
# Tokens without line breaks

Every token is read inside a line, so the texts of a token hold no line break
(`Token.Unbroken`). For most readers this is so because they read a run of characters of a
class that the line break is not in. An attribute list is taken apart once more behind the
reader: its quoted texts and interpolations are swapped for placeholders and put back. All
characters on this way are those of the list, or belong to placeholders and quotes
(`Attributes.unbroken_parse`).

`Scanner.unbroken_of_mem_tape` states it for all lexemes of a template.
-/

set_option autoImplicit false

namespace Offside

open Character

/-! ### Attribute lists -/

namespace Attribute

variable {cs text : List Char} {p : Placeholders} {m : Mark}

theorem Placeholders.not_mem_swap (m : Mark) (h : '\n' ∉ cs) : '\n' ∉ swap m cs := by
  rw [swap, mem_number (by decide) (by decide)]
  exact fun hmem => h (Mark.mem_of_char_mem_cut_text hmem)

theorem Mark.not_mem_of_mem_spans (m : Mark) (h : '\n' ∉ cs) :
    ∀ text ∈ spans m.readText cs, '\n' ∉ text := by
  rw [spans_eq_taken]
  induction cs using cut_induction m.readText with
  | nil =>
    rw [cut_nil]
    exact List.forall_mem_nil _
  | char c cs hnone ih =>
    rw [cut_of_outcome_none hnone, taken_cons_char]
    exact ih fun hmem => h (.tail c hmem)
  | span c cs text rest hsome ih =>
    -- The text that is taken out stands in the list, and so does what follows it.
    obtain ⟨opening, closing, heq⟩ := eq_append_of_outcome hsome
    simp only [heq, List.mem_append, not_or] at h
    rw [cut_of_outcome_some hsome]
    exact List.forall_mem_cons.2 ⟨h.1.1.2, ih h.2⟩

namespace Placeholders

/-- No recorded text holds a line break. -/
def Unbroken (p : Placeholders) : Prop :=
  ∀ m, ∀ text ∈ p.texts m, '\n' ∉ text

theorem unbroken_substitute (h : '\n' ∉ cs) :
    (substitute cs).1.Unbroken ∧ '\n' ∉ (substitute cs).2 := by
  -- Each kind of text is taken out of what the kinds before it left.
  have hunspliced := not_mem_swap .interpolation h
  have hundoubled := not_mem_swap .double hunspliced
  refine ⟨fun m => ?_, not_mem_swap .single hundoubled⟩
  cases m with
  | interpolation => exact Mark.not_mem_of_mem_spans _ h
  | double => exact Mark.not_mem_of_mem_spans _ hunspliced
  | single => exact Mark.not_mem_of_mem_spans _ hundoubled

theorem Unbroken.not_mem_of_get? {digits : List Char} (hp : p.Unbroken)
    (h : p.get? m digits = some text) : '\n' ∉ text :=
  hp m text (List.mem_of_getElem? h)

theorem Unbroken.not_mem_putBack (hp : p.Unbroken) (m : Mark) (h : '\n' ∉ cs) :
    '\n' ∉ p.putBack m cs := by
  induction cs using cut_induction m.readHolder with
  | nil =>
    rw [putBack_nil]
    exact h
  | char c cs hnone ih =>
    rw [List.mem_cons, not_or] at h
    rw [putBack_of_outcome_none hnone, List.mem_cons, not_or]
    exact ⟨h.1, ih h.2⟩
  | span c cs digits rest hsome ih =>
    obtain ⟨heq, hdigits⟩ := Mark.eq_holder_of_outcome hsome
    rw [heq, List.mem_append, not_or] at h
    rw [heq]
    cases hget : p.get? m digits with
    | none =>
      rw [putBack_holder hdigits, hget, List.mem_append, not_or]
      exact ⟨h.1, ih h.2⟩
    | some text =>
      have hrequote : '\n' ∉ m.requote text := by
        cases m <;> simp [Mark.requote, hp.not_mem_of_get? hget]
      rw [putBack_holder hdigits, hget, List.mem_append, not_or]
      exact ⟨hrequote, ih h.2⟩

theorem Unbroken.not_mem_unquote (hp : p.Unbroken) (h : '\n' ∉ cs) : '\n' ∉ p.unquote cs := by
  have hgetD : ∀ m digits, '\n' ∉ (p.get? m digits).getD cs := by
    intro m digits
    cases hget : p.get? m digits with
    | none => exact h
    | some text => exact hp.not_mem_of_get? hget
  unfold unquote
  split
  · exact hgetD .single _
  · split
    · exact hgetD .double _
    · exact h

theorem Unbroken.not_mem_restore (hp : p.Unbroken) (h : '\n' ∉ cs) : '\n' ∉ p.restore cs := by
  have htrim : '\n' ∉ trim isSpace cs := fun hmem => h (mem_of_mem_trim hmem)
  exact hp.not_mem_putBack _
    (hp.not_mem_putBack _ (hp.not_mem_putBack _ (hp.not_mem_unquote htrim)))

end Placeholders

theorem tighten_sublist (afterSeparator : Bool) (cs : List Char) :
    (tighten afterSeparator cs).Sublist cs := by
  induction cs generalizing afterSeparator with
  | nil => exact .slnil
  | cons c cs ih =>
    rw [tighten]
    split
    · split
      · exact (ih _).cons c
      · exact (ih _).cons_cons c
    · exact (ih _).cons_cons c

theorem stripQuotes_subset (cs : List Char) : stripQuotes cs ⊆ cs := by
  intro c hc
  simp only [stripQuotes, List.mem_reverse] at hc
  split at hc
  · cases hc
  · next last front hreverse =>
    -- The quote at the end goes last, from what is left without the one at the start.
    have hmem : c ∈ last :: front := by
      split at hc
      · exact .tail _ hc
      · exact hc
    rw [← hreverse, List.mem_reverse] at hmem
    split at hmem
    · exact hmem
    · split at hmem
      · exact .tail _ hmem
      · exact hmem

theorem subset_of_mem_splitOnP (d : Char → Bool) (cs : List Char) :
    ∀ piece ∈ cs.splitOnP d, piece ⊆ cs := by
  induction cs with
  | nil => simp
  | cons c cs ih =>
    have hcons : ∀ piece ∈ cs.splitOnP d, piece ⊆ c :: cs :=
      fun piece hpiece => List.Subset.trans (ih piece hpiece) (List.subset_cons_self c cs)
    rw [List.splitOnP_cons_eq_if_modifyHead]
    split
    · exact List.forall_mem_cons.2 ⟨List.nil_subset _, hcons⟩
    · obtain ⟨first, others, hsplit⟩ := List.exists_cons_of_ne_nil (List.splitOnP_ne_nil d cs)
      rw [hsplit] at ih hcons
      rw [hsplit, List.modifyHead_cons]
      obtain ⟨hfirst, hothers⟩ := List.forall_mem_cons.1 hcons
      exact List.forall_mem_cons.2 ⟨List.cons_subset.2 ⟨List.mem_cons_self, hfirst⟩, hothers⟩

theorem subset_of_divide? {entry key value : List Char} (h : divide? entry = some (key, value)) :
    key ⊆ entry ∧ value ⊆ entry := by
  have hupTo : ∀ close, Reader.outcome (upTo close) entry = some (key, value) →
      key ⊆ entry ∧ value ⊆ entry := by
    intro close hread
    rw [(outcome_upTo_eq_some_iff.1 hread).2]
    simp
  rw [divide?_eq] at h
  obtain ⟨out, hout, h⟩ := Option.bind_eq_some_iff.1 h
  split at h
  · cases h
  · obtain rfl := Option.some.inj h
    exact (Option.or_eq_some_iff.1 hout).elim (hupTo '=') fun hout => hupTo ':' hout.2

theorem Value.unbroken_ofRaw {raw : List Char} (hp : p.Unbroken) (h : '\n' ∉ raw) :
    (Value.ofRaw p raw).Unbroken := by
  have hstripped : '\n' ∉ stripQuotes (trim isSpace raw) :=
    fun hmem => h (mem_of_mem_trim (stripQuotes_subset _ hmem))
  unfold Value.ofRaw
  dsimp only
  split
  · trivial
  split
  · trivial
  split
  · trivial
  · exact Markup.unbroken_ofList.2 (hp.not_mem_restore hstripped)

theorem Entry.unbroken_ofRaw {entry : List Char} (hp : p.Unbroken) (h : '\n' ∉ entry) :
    Markup.Unbroken (Entry.ofRaw p entry).1 ∧ (Entry.ofRaw p entry).2.Unbroken := by
  have hname : ∀ key : List Char, '\n' ∉ key →
      Markup.Unbroken (String.ofList (stripQuotes (trim isSpace (p.restore key)))) := by
    intro key hkey
    rw [Markup.unbroken_ofList]
    exact fun hmem => hp.not_mem_restore hkey (mem_of_mem_trim (stripQuotes_subset _ hmem))
  unfold Entry.ofRaw
  cases hdivide : divide? entry with
  | none => exact ⟨hname entry h, trivial⟩
  | some parts =>
    obtain ⟨hkey, hvalue⟩ := subset_of_divide? hdivide
    exact ⟨hname parts.1 fun hmem => h (hkey hmem),
      Value.unbroken_ofRaw hp fun hmem => h (hvalue hmem)⟩

end Attribute

/-- Decoding an attribute list brings no line break into it. -/
theorem Attributes.unbroken_parse {raw : String} (h : Markup.Unbroken raw) :
    (Attributes.parse raw).Unbroken := by
  obtain ⟨hp, htext⟩ := Attribute.Placeholders.unbroken_substitute h
  intro entry hentry
  obtain ⟨hmem, -⟩ := List.mem_filter.1 (mem_of_mem_ofList entry hentry)
  obtain ⟨piece, hpiece, rfl⟩ := List.mem_map.1 hmem
  refine Attribute.Entry.unbroken_ofRaw hp fun hbreak => htext ?_
  have hsplit := Attribute.subset_of_mem_splitOnP _ _ piece (List.mem_filter.1 hpiece).1 hbreak
  exact mem_of_mem_trim ((Attribute.tighten_sublist _ _).mem hsplit)

/-! ### Readers -/

namespace Token

/-- No text of a token holds a line break. Only those are listed that can be seen in markup. -/
def Unbroken : Token → Prop
  | .tag name | .idName name | .className name => Markup.Unbroken name
  | .attributes _ as => as.Unbroken
  | .text value => Markup.Unbroken value
  | .code source _ => Markup.Unbroken source
  | .comment body _ => Markup.Unbroken body
  | _ => True

/-- Every token that a reader reads holds no line break. -/
def ReadsUnbroken (reader : Reader Token) : Prop :=
  ∀ ⦃cs : List Char⦄ ⦃t : Token⦄ ⦃r : Rest cs⦄, reader cs = some (t, r) → t.Unbroken

theorem not_mem_takeWhile {p : Char → Bool} (hp : p '\n' = false) (cs : List Char) :
    '\n' ∉ cs.takeWhile p := by
  intro hmem
  rw [List.mem_takeWhile_imp hmem] at hp
  cases hp

/-- A run of characters, with a character of a class in front. -/
theorem unbroken_run {p q : Char → Bool} {c : Char} (hq : q '\n' = false) (hc : q c = true)
    (hp : p '\n' = false) (cs : List Char) :
    Markup.Unbroken (String.ofList (c :: cs.takeWhile p)) := by
  rw [Markup.unbroken_ofList, List.mem_cons, not_or]
  refine ⟨?_, not_mem_takeWhile hp cs⟩
  rintro rfl
  rw [hq] at hc
  cases hc

theorem not_mem_readLine {cs body : List Char} {r : Rest cs} (h : readLine cs = some (body, r)) :
    '\n' ∉ body := by
  unfold readLine at h
  split at h
  · cases h
  · next c cs =>
    split at h
    · next hc =>
      obtain ⟨rfl, -⟩ := Prod.mk.inj (Option.some.inj h)
      exact Markup.unbroken_ofList.1 (unbroken_run (q := isInline) rfl hc rfl cs)
    · cases h

theorem readsUnbroken_tag : ReadsUnbroken readTag := by
  intro cs t r h
  unfold readTag at h
  split at h
  · cases h
  · next c cs =>
    split at h
    · next hc =>
      cases h
      exact unbroken_run (by decide) hc (by decide) cs
    · cases h

theorem readsUnbroken_markup : ReadsUnbroken readMarkup := by
  intro cs t r h
  unfold readMarkup at h
  split at h
  · next c cs =>
    split at h
    · next hc =>
      cases h
      have hrun := unbroken_run (q := fun c => isWord c || c == '/') (by decide) hc
        (p := isInline) rfl cs
      rw [Markup.unbroken_ofList] at hrun
      exact Markup.unbroken_ofList.2 (List.not_mem_cons_of_ne_of_not_mem (by decide) hrun)
    · cases h
  · cases h

theorem readsUnbroken_code : ReadsUnbroken readCode := by
  intro cs t r h
  unfold readCode at h
  split at h
  · obtain ⟨⟨source, rest⟩, hread, heq⟩ := Option.map_eq_some_iff.1 h
    cases heq
    exact Markup.unbroken_ofList.2 (not_mem_readLine hread)
  · split at h
    · obtain ⟨⟨source, rest⟩, hread, heq⟩ := Option.map_eq_some_iff.1 h
      cases heq
      exact Markup.unbroken_ofList.2 (not_mem_readLine hread)
    · cases h
  · cases h

theorem readsUnbroken_comment : ReadsUnbroken readComment := by
  intro cs t r h
  unfold readComment at h
  split at h
  · cases h
    exact Markup.unbroken_ofList.2 (not_mem_takeWhile (by decide) _)
  · cases h

theorem readsUnbroken_marked (mark : Char) (make : String → Token)
    (hmake : ∀ name, Markup.Unbroken name → (make name).Unbroken) :
    ReadsUnbroken (readMarked mark make) := by
  intro cs t r h
  unfold readMarked at h
  split at h
  · next m c cs =>
    split at h
    · next hc =>
      cases h
      rw [Bool.and_eq_true] at hc
      exact hmake _ (unbroken_run (by decide) hc.2 (by decide) cs)
    · cases h
  · cases h

/-- An attribute list is closed on its own line. -/
theorem not_mem_readClosing (quote : Option Char) (depth : Nat) {cs body rest : List Char}
    (h : Reader.outcome (Attribute.readClosing quote depth) cs = some (body, rest)) :
    '\n' ∉ body := by
  induction cs generalizing quote depth body rest with
  | nil => cases h
  | cons c cs ih =>
    obtain ⟨quote', depth', hcons⟩ := outcome_readClosing_cons quote depth c
    rw [hcons] at h
    split at h
    · cases h
    next hc =>
    split at h
    · obtain ⟨rfl, -⟩ := Prod.mk.inj (Option.some.inj h)
      exact List.not_mem_nil
    split at h
    · cases h
    · obtain ⟨⟨body', rest'⟩, hread, heq⟩ := Option.map_eq_some_iff.1 h
      obtain ⟨rfl, -⟩ := Prod.mk.inj heq
      exact List.not_mem_cons_of_ne_of_not_mem (Ne.symm hc) (ih _ _ hread)

theorem readsUnbroken_attributes : ReadsUnbroken readAttributes := by
  intro cs t r h
  unfold readAttributes at h
  split at h
  · split at h
    · obtain ⟨⟨body, rest⟩, hread, heq⟩ := Option.map_eq_some_iff.1 h
      cases heq
      have houtcome := congrArg (Option.map fun out => (out.1, out.2.1)) hread
      have hbody : '\n' ∉ body := not_mem_readClosing none 1 houtcome
      exact Attributes.unbroken_parse
        (Markup.unbroken_ofList.2 fun hmem => hbody (mem_of_mem_trim hmem))
    · cases h
  · cases h

/-- A token whose texts are not seen in markup. -/
theorem unbroken_of_kind {t : Token} {kind : Kind} (h : t.kind = kind)
    (hkind : kind ∈ [.doctype, .filter, .pipe]) : t.Unbroken := by
  subst h
  cases t with
  | doctype version | filter name | pipe => trivial
  | _ => contradiction

theorem readsUnbroken_read : ReadsUnbroken read := by
  intro cs t r h
  obtain ⟨reader, hmem, h⟩ := List.exists_of_findSome?_eq_some h
  simp only [readers, List.mem_cons, List.not_mem_nil, or_false] at hmem
  obtain rfl | rfl | rfl | rfl | rfl | rfl | rfl | rfl | rfl | rfl := hmem
  · exact unbroken_of_kind (reads_doctype h) (by decide)
  · exact readsUnbroken_tag h
  · exact unbroken_of_kind (reads_pipe h) (by decide)
  · exact readsUnbroken_markup h
  · exact unbroken_of_kind (reads_filter h) (by decide)
  · exact readsUnbroken_code h
  · exact readsUnbroken_comment h
  · exact readsUnbroken_marked '#' .idName (fun _ hname => hname) h
  · exact readsUnbroken_marked '.' .className (fun _ hname => hname) h
  · exact readsUnbroken_attributes h

theorem unescapeParens_subset (cs : List Char) : unescapeParens cs ⊆ cs := by
  fun_induction unescapeParens cs with
  | case1 => exact List.Subset.refl _
  | case2 cs ih => exact List.cons_subset.2 ⟨by simp, List.Subset.trans ih (by simp)⟩
  | case3 c cs _ _ ih => exact List.Subset.trans ih (List.subset_cons_self c cs)
  | case4 c cs _ _ ih => exact List.cons_subset_cons c ih

theorem readsUnbroken_inlineText (last : Option Kind) : ReadsUnbroken (readInlineText last) := by
  intro cs t r h
  unfold readInlineText at h
  split at h
  · obtain ⟨⟨body, rest⟩, hread, heq⟩ := Option.map_eq_some_iff.1 h
    cases heq
    exact Markup.unbroken_ofList.2 fun hmem =>
      not_mem_readLine hread (unescapeParens_subset body hmem)
  · cases h

end Token

/-- The text of a line in a verbatim region is what stands on the line, and spaces. -/
theorem Region.not_mem_text (region : Region) {cs : List Char} (h : '\n' ∉ cs) :
    '\n' ∉ region.text cs := by
  have hdropOne : ∀ {cs : List Char}, '\n' ∉ cs → '\n' ∉ dropOne ' ' cs := by
    intro cs h
    cases cs with
    | nil => exact h
    | cons c cs =>
      rw [List.mem_cons, not_or] at h
      rw [dropOne]
      split
      · exact h.2
      · exact List.not_mem_cons_of_ne_of_not_mem h.1 h.2
  unfold text
  rw [List.mem_append, not_or]
  refine ⟨by simp, ?_⟩
  split
  · exact hdropOne h
  · exact hdropOne fun hmem => h (.tail _ hmem)
  · exact h

namespace Scanner

theorem readsUnbroken_verbatim (s : Scanner) : Token.ReadsUnbroken s.readVerbatim := by
  intro cs t r h
  unfold readVerbatim at h
  split at h
  · cases h
  · next region hregion =>
    split at h
    · cases h
    · obtain ⟨⟨body, rest⟩, hread, heq⟩ := Option.map_eq_some_iff.1 h
      cases heq
      exact Markup.unbroken_ofList.2 (region.not_mem_text (Token.not_mem_readLine hread))

theorem readsUnbroken_inline (s : Scanner) : Token.ReadsUnbroken s.readInline := by
  intro cs t r h
  rcases Option.or_eq_some_iff.1 h with h | ⟨-, h⟩
  · exact s.readsUnbroken_verbatim h
  · rcases Option.or_eq_some_iff.1 h with h | ⟨-, h⟩
    · exact Token.readsUnbroken_read h
    · exact Token.readsUnbroken_inlineText s.last h

/-- No text of a template's lexemes holds a line break. -/
theorem unbroken_of_mem_tape {s : Scanner} (hs : s.Sound) :
    ∀ l ∈ s.tape.lexemes, l.token.Unbroken := by
  have hlevel : ∀ t : Token, t.kind.isInline = false → t.Unbroken := by
    intro t ht
    cases t with
    | indent | outdent | newline | eos => trivial
    | _ => cases ht
  exact forall_mem_tape hlevel (fun {s} {_} {_} {_} h => s.readsUnbroken_inline h) hs

end Scanner

end Offside
