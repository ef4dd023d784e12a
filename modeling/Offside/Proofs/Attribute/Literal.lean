import Offside.Proofs.Attribute.Recorded

/-!
# Literals in an attribute list

An attribute list consists of plain text and of literals in quotes. Its texts are taken out in
three passes, each over the whole list: interpolations, then double-quoted texts, then
single-quoted texts. `Placeholders.exists_hidden` says that these passes respect the literals:
each becomes a placeholder of its own, and the text recorded for it is made of its body alone.

That takes more than quotes that pair within each literal. The pass for double quotes comes
first, and it does not know that a double quote inside a single-quoted literal is plain text. An
odd number of these leaves a quote open, which then pairs with any later one.
-/

set_option autoImplicit false

namespace Offside.Attribute

open Character

/-! ### Cutting what is put together -/

/-- Every interpolation that is started is finished. -/
def Closed (cs : List Char) : Prop :=
  ∀ front back, cs = front ++ '#' :: '{' :: back → '}' ∈ back

theorem Closed.of_append (xs ys : List Char) (h : Closed (xs ++ ys)) : Closed ys := by
  intro front back heq
  exact h (xs ++ front) back (by rw [heq, List.append_assoc])

variable {cs xs ys : List Char}

/-- Interpolations are finished behind a character, and so is the one that the character may
start. -/
theorem closed_cons_iff {c : Char} :
    Closed (c :: cs) ↔ (c = '#' → cs.head? = some '{' → '}' ∈ cs.tail) ∧ Closed cs := by
  constructor
  · intro h
    refine ⟨?_, h.of_append [c] cs⟩
    rintro rfl hhead
    obtain ⟨back, rfl⟩ := List.head?_eq_some_iff.1 hhead
    exact h [] back rfl
  · rintro ⟨hhead, htail⟩ front back heq
    cases front with
    | nil =>
      obtain ⟨rfl, rfl⟩ := List.cons.inj heq
      exact hhead rfl rfl
    | cons d front => exact htail front back (List.cons.inj heq).2

instance decidableClosed : DecidablePred Closed
  | [] => isTrue (by intro front back heq; simp at heq)
  | _ :: cs =>
    have := decidableClosed cs
    decidable_of_iff _ closed_cons_iff.symm

theorem closed_of_not_mem (h : '{' ∉ cs) : Closed cs := by
  rintro front back rfl
  simp at h

theorem head?_append_ne {c : Char} (hxs : xs.head? ≠ some c)
    (hys : ys.head? ≠ some c) : (xs ++ ys).head? ≠ some c := by
  cases xs with
  | nil => exact hys
  | cons d xs => exact hxs

/-- Interpolations are found separately in a text that finishes its own, and behind it. -/
theorem cut_interpolation_append (hxs : Closed xs)
    (hys : ys.head? ≠ some '{') :
    cut (Mark.readText .interpolation) (xs ++ ys) =
      cut (Mark.readText .interpolation) xs ++ cut (Mark.readText .interpolation) ys := by
  induction xs using cut_induction (Mark.readText .interpolation) with
  | nil => rw [cut_nil, List.nil_append, List.nil_append]
  | char c xs hnone ih =>
    have hread : Reader.outcome (Mark.readText .interpolation) (c :: (xs ++ ys)) = none := by
      refine Mark.outcome_interpolation_of_ne ?_
      rintro ⟨back, heq⟩
      obtain ⟨rfl, hback⟩ := List.cons.inj heq
      cases xs with
      | nil =>
        rw [List.nil_append] at hback
        exact hys (hback ▸ rfl)
      | cons d xs =>
        -- The interpolation would have been read without what follows, as it is finished.
        obtain ⟨rfl, -⟩ := List.cons.inj hback
        obtain ⟨body, rest, rfl, hbody⟩ := List.eq_append_cons_of_mem (hxs [] xs rfl)
        rw [Mark.outcome_interpolation, outcome_upTo hbody] at hnone
        cases hnone
    rw [List.cons_append, cut_of_outcome_none hread, cut_of_outcome_none hnone,
      ih (hxs.of_append [c] xs), List.cons_append]
  | span c xs text rest hsome ih =>
    obtain ⟨expression, hexpression, htext, heq⟩ := Mark.outcome_interpolation_eq_some_iff.1 hsome
    have hread : Reader.outcome (Mark.readText .interpolation) (c :: (xs ++ ys)) =
        some (text, rest ++ ys) :=
      Mark.outcome_interpolation_eq_some_iff.2
        ⟨expression, hexpression, htext, by rw [← List.cons_append, heq, List.append_assoc]⟩
    rw [heq] at hxs
    rw [List.cons_append, cut_of_outcome_some hread, cut_of_outcome_some hsome,
      ih (hxs.of_append text rest), List.cons_append]

/-- A text without braces has no interpolations. -/
theorem cut_interpolation_of_not_mem (h : '{' ∉ cs) :
    cut (Mark.readText .interpolation) cs = cs.map .char := by
  induction cs with
  | nil => exact cut_nil _
  | cons c cs ih =>
    have hread : Reader.outcome (Mark.readText .interpolation) (c :: cs) = none := by
      refine Mark.outcome_interpolation_of_ne fun hpre => h ?_
      exact hpre.subset (by simp)
    rw [cut_of_outcome_none hread, ih (fun hmem => h (List.mem_cons_of_mem _ hmem)), List.map_cons]

/-- Quoted texts are found separately in a text that leaves no quote open, or that no quote
follows, and behind it. -/
theorem cut_quote_append (q : Quote) (h : xs.count q.char % 2 = 0 ∨ q.char ∉ ys) :
    cut q.mark.readText (xs ++ ys) = cut q.mark.readText xs ++ cut q.mark.readText ys := by
  -- A quoted text is passed at once, with both its quotes, which keeps the count even.
  induction hlength : xs.length using Nat.strongRecOn generalizing xs with
  | _ length ih =>
    match xs with
    | [] => rw [cut_nil, List.nil_append, List.nil_append]
    | c :: xs =>
      by_cases hc : c = q.char
      · subst hc
        by_cases hmem : q.char ∈ xs
        · obtain ⟨body, rest, rfl, hbody⟩ := List.eq_append_cons_of_mem hmem
          have hrest : rest.count q.char % 2 = 0 ∨ q.char ∉ ys := by
            refine h.imp_left fun heven => ?_
            simp [List.count_eq_zero_of_not_mem hbody] at heven
            omega
          rw [List.cons_append, List.append_assoc, List.cons_append, Quote.cut_quoted hbody,
            Quote.cut_quoted hbody, ih rest.length (by simp [← hlength]; omega) hrest rfl,
            List.cons_append]
        · have hys : q.char ∉ ys := by
            refine h.resolve_left fun heven => ?_
            simp [List.count_eq_zero_of_not_mem hmem] at heven
          rw [List.cons_append, Quote.cut_of_not_mem (by simp [hmem, hys]),
            Quote.cut_of_not_mem hmem, ih xs.length (by simp [← hlength]) (.inr hys) rfl,
            List.cons_append]
      · have hxs : xs.count q.char % 2 = 0 ∨ q.char ∉ ys := by
          rwa [List.count_cons_of_ne hc] at h
        rw [← q.mark_first] at hc
        rw [List.cons_append, Mark.cut_text_of_ne hc, Mark.cut_text_of_ne hc,
          ih xs.length (by simp [← hlength]) hxs rfl, List.cons_append]

/-! ### Literals -/

/-- A value as it is written: a word, or a text between two quotes of one kind. -/
inductive Literal where
  | word (cs : List Char)
  | quoted (q : Quote) (body : List Char)
deriving DecidableEq, Repr

/-- Text without braces and quotes. -/
def Plain (cs : List Char) : Prop :=
  '{' ∉ cs ∧ ∀ q : Quote, q.char ∉ cs

namespace Literal

/-- The characters of a literal. -/
def text : Literal → List Char
  | word cs => cs
  | quoted q body => q.char :: (body ++ [q.char])

/-- A word is plain. A text between quotes has no quote of their kind in it, and finishes its
interpolations. -/
def Sound : Literal → Prop
  | word cs => Plain cs
  | quoted q body => q.char ∉ body ∧ Closed body

/-- The pieces that the pass for a kind of text cuts a literal into. -/
def pieces (m : Mark) : Literal → List (Piece (List Char))
  | word cs => cs.map .char
  | quoted q body =>
    if q.mark = m then [.span body]
    else .char q.char :: (cut m.readText body ++ [.char q.char])

variable {l l' : Literal} {rest : List Char}

theorem head?_text_ne (hl : l.Sound) : l.text.head? ≠ some '{' := by
  cases l with
  | word cs => exact fun h => hl.1 (List.mem_of_head? h)
  | quoted q body => cases q <;> exact nofun

/-- The interpolations of a literal are found separately from those behind it: it finishes its
own, and its closing quote is no brace. -/
theorem cut_interpolation (hl : l.Sound) (hrest : rest.head? ≠ some '{') :
    cut (Mark.readText .interpolation) (l.text ++ rest) =
      l.pieces .interpolation ++ cut (Mark.readText .interpolation) rest := by
  cases l with
  | word cs =>
    rw [text, cut_interpolation_append (closed_of_not_mem hl.1) hrest,
      cut_interpolation_of_not_mem hl.1]
    rfl
  | quoted q body =>
    have hfirst : q.char ≠ Mark.first .interpolation := by cases q <;> decide
    have htext : (quoted q body).text ++ rest = q.char :: (body ++ q.char :: rest) := by
      simp [text]
    rw [htext, Mark.cut_text_of_ne hfirst,
      cut_interpolation_append hl.2 (by simpa using q.char_ne_brace), Mark.cut_text_of_ne hfirst,
      pieces, if_neg q.mark_ne_interpolation]
    simp

/-- Only the quotes around a text are of their kind. -/
def Free (q : Quote) : Literal → Prop
  | word cs => q.char ∉ cs
  | quoted q' body => q' = q → q.char ∉ body

/-- A text between other quotes leaves a quote of a kind open. -/
def Opens (q : Quote) : Literal → Prop
  | word _ => False
  | quoted q' body => q' ≠ q ∧ body.count q.char % 2 = 1

/-- Quoted texts are found separately in a literal and behind it, unless the literal leaves a
quote open and one follows. -/
theorem cut_quote {q : Quote} (hfree : l.Free q) (hopens : l.Opens q → q.char ∉ rest) :
    cut q.mark.readText (l.text ++ rest) = l.pieces q.mark ++ cut q.mark.readText rest := by
  cases l with
  | word cs =>
    have hcs : q.mark.first ∉ cs := by rwa [q.mark_first]
    exact Mark.cut_text_append_of_not_mem hcs rest
  | quoted q' body =>
    have htext : (quoted q' body).text ++ rest = q'.char :: (body ++ q'.char :: rest) := by
      simp [text]
    by_cases hq : q' = q
    · subst hq
      rw [htext, Quote.cut_quoted (hfree rfl), pieces, if_pos rfl]
      rfl
    · have hchar : q'.char ≠ q.char := by
        revert hq
        cases q <;> cases q' <;> decide
      have hmark : q'.mark ≠ q.mark := by
        revert hq
        cases q <;> cases q' <;> decide
      have hbody : body.count q.char % 2 = 0 ∨ q.char ∉ q'.char :: rest := by
        rw [List.mem_cons, not_or]
        by_cases hodd : body.count q.char % 2 = 1
        · exact .inr ⟨Ne.symm hchar, hopens ⟨hq, hodd⟩⟩
        · exact .inl (by omega)
      rw [← q.mark_first] at hchar
      rw [htext, Mark.cut_text_of_ne hchar, cut_quote_append q hbody, Mark.cut_text_of_ne hchar,
        pieces, if_neg hmark]
      simp

/-- What a pass leaves of a literal, where `all` are the texts that it takes out. -/
inductive Swapped (m : Mark) (all : List (List Char)) : Literal → Literal → Prop where
  | word (cs : List Char) : Swapped m all (.word cs) (.word cs)
  | hidden {q : Quote} {body : List Char} {n : Nat} (hmark : q.mark = m)
      (hbody : all[n]? = some body) :
      Swapped m all (.quoted q body) (.word (m.holder (Nat.toDigits 10 n)))
  | inner {q : Quote} {body : List Char} {n : Nat} (hmark : q.mark ≠ m)
      (hbody : taken (cut m.readText body) <+: all.drop n) :
      Swapped m all (.quoted q body) (.quoted q (Placeholders.number m n (cut m.readText body)))

/-- With the texts of a pass recorded in order, what the pass writes for a literal is a literal
again: the word as it was, a placeholder, or the quoted text with placeholders inside. -/
theorem exists_swapped {m : Mark} {all : List (List Char)} {n : Nat}
    (h : taken (l.pieces m) <+: all.drop n) :
    ∃ l', Placeholders.number m n (l.pieces m) = l'.text ∧ Swapped m all l l' := by
  cases l with
  | word cs => exact ⟨.word cs, number_chars m n cs, .word cs⟩
  | quoted q body =>
    by_cases hmark : q.mark = m
    · rw [pieces, if_pos hmark] at h ⊢
      obtain ⟨rest, hrest⟩ := h
      have hbody : all[n]? = some body := by
        have hget : (all.drop n)[0]? = some body := by
          rw [← hrest]
          rfl
        simpa using hget
      exact ⟨.word (m.holder (Nat.toDigits 10 n)), List.append_nil _, .hidden hmark hbody⟩
    · rw [pieces, if_neg hmark] at h ⊢
      rw [taken_cons_char, taken_append] at h
      refine ⟨_, ?_, .inner hmark ((List.prefix_append _ _).trans h)⟩
      exact congrArg (q.char :: ·) (number_append m n _ _)

end Literal

/-! ### Lists of literals -/

section Laid

variable {β : Type} (frame : β → List Char)

/-- Literals in their frames, one after the other. -/
def laid (fs : List (β × Literal)) : List Char :=
  fs.flatMap fun f => frame f.1 ++ f.2.text

/-- The pieces that the pass for a kind of text cuts all that into. -/
def laidPieces (m : Mark) (fs : List (β × Literal)) : List (Piece (List Char)) :=
  fs.flatMap fun f => (frame f.1).map .char ++ f.2.pieces m

variable {frame} {f : β × Literal} {fs fs' : List (β × Literal)}

theorem laid_cons : laid frame (f :: fs) = frame f.1 ++ (f.2.text ++ laid frame fs) := by
  rw [laid, List.flatMap_cons, List.append_assoc]
  rfl

theorem laidPieces_cons (m : Mark) :
    laidPieces frame m (f :: fs) =
      (frame f.1).map .char ++ (f.2.pieces m ++ laidPieces frame m fs) := by
  rw [laidPieces, List.flatMap_cons, List.append_assoc]
  rfl

/-- The pass for interpolations cuts each literal by itself. No literal starts with a brace,
which would make an interpolation of a hash in front of it. -/
theorem cut_interpolation_laid (hframe : ∀ f ∈ fs, Plain (frame f.1))
    (hsound : ∀ f ∈ fs, f.2.Sound) :
    cut (Mark.readText .interpolation) (laid frame fs) = laidPieces frame .interpolation fs ∧
      (laid frame fs).head? ≠ some '{' := by
  induction fs with
  | nil => exact ⟨cut_nil _, nofun⟩
  | cons f fs ih =>
    obtain ⟨hcut, hhead⟩ := ih (fun f hf => hframe f (List.mem_cons_of_mem _ hf))
      (fun f hf => hsound f (List.mem_cons_of_mem _ hf))
    have hf := hframe f List.mem_cons_self
    have hl := hsound f List.mem_cons_self
    have hliteral := head?_append_ne (Literal.head?_text_ne hl) hhead
    rw [laid_cons, laidPieces_cons]
    constructor
    · rw [cut_interpolation_append (closed_of_not_mem hf.1) hliteral,
        cut_interpolation_of_not_mem hf.1, Literal.cut_interpolation hl hhead, hcut]
    · exact head?_append_ne (fun h => hf.1 (List.mem_of_head? h)) hliteral

/-- A pass for quotes cuts each literal by itself, if no quote is left open that a later one
closes. -/
theorem cut_quote_laid (q : Quote) (hframe : ∀ f ∈ fs, Plain (frame f.1))
    (hfree : ∀ f ∈ fs, f.2.Free q)
    (hopens : fs.Pairwise fun f g => f.2.Opens q → q.char ∉ g.2.text) :
    cut q.mark.readText (laid frame fs) = laidPieces frame q.mark fs := by
  induction fs with
  | nil => exact cut_nil _
  | cons f fs ih =>
    obtain ⟨hlater, hopens⟩ := List.pairwise_cons.1 hopens
    have hcut := ih (fun f hf => hframe f (List.mem_cons_of_mem _ hf))
      (fun f hf => hfree f (List.mem_cons_of_mem _ hf)) hopens
    have hf : q.mark.first ∉ frame f.1 := by
      rw [q.mark_first]
      exact (hframe f List.mem_cons_self).2 q
    have hrest : f.2.Opens q → q.char ∉ laid frame fs := by
      intro hopen hmem
      obtain ⟨g, hg, hmem⟩ := List.mem_flatMap.1 hmem
      rcases List.mem_append.1 hmem with hmem | hmem
      · exact (hframe g (List.mem_cons_of_mem _ hg)).2 q hmem
      · exact hlater g hg hopen hmem
    rw [laid_cons, laidPieces_cons, Mark.cut_text_append_of_not_mem hf,
      Literal.cut_quote (hfree f List.mem_cons_self) hrest, hcut]

/-- Numbering the pieces of a list numbers those of each literal, from where the one before
stopped. -/
theorem exists_number_laidPieces {m : Mark} {all : List (List Char)} {n : Nat}
    (h : taken (laidPieces frame m fs) <+: all.drop n) :
    ∃ fs', Placeholders.number m n (laidPieces frame m fs) = laid frame fs' ∧
      List.Forall₂ (fun f f' => f'.1 = f.1 ∧ f.2.Swapped m all f'.2) fs fs' := by
  induction fs generalizing n with
  | nil => exact ⟨[], rfl, .nil⟩
  | cons f fs ih =>
    rw [laidPieces_cons] at h ⊢
    rw [taken_append, taken_append, taken_chars, List.nil_append] at h
    obtain ⟨l', hnumber, hswapped⟩ := Literal.exists_swapped ((List.prefix_append _ _).trans h)
    obtain ⟨fs', hlater, hforall⟩ := ih (prefix_drop_of_append h)
    refine ⟨(f.1, l') :: fs', ?_, .cons ⟨rfl, hswapped⟩ hforall⟩
    rw [number_append, number_append, number_chars, taken_chars, List.length_nil, Nat.add_zero,
      hnumber, hlater, laid_cons]

/-- A pass over the list that cuts each literal by itself is a pass over each literal. -/
theorem exists_swapped_laid {m : Mark}
    (h : cut m.readText (laid frame fs) = laidPieces frame m fs) :
    ∃ fs', Placeholders.swap m (laid frame fs) = laid frame fs' ∧
      List.Forall₂ (fun f f' => f'.1 = f.1 ∧
        f.2.Swapped m (spans m.readText (laid frame fs)) f'.2) fs fs' := by
  rw [Placeholders.swap, spans_eq_taken, h]
  exact exists_number_laidPieces List.prefix_rfl

end Laid

/-! ### The passes one after the other -/

namespace Literal

variable {l l₁ l₂ l₃ : Literal} {all doubles singles : List (List Char)}

/-- A single-quoted text with an odd number of double quotes outside its interpolations. -/
def LeavesOpen : Literal → Prop
  | quoted .single body => (blanked (cut (Mark.readText .interpolation) body)).count '"' % 2 = 1
  | _ => False

instance : DecidablePred LeavesOpen
  | quoted .single body =>
    inferInstanceAs (Decidable
      ((blanked (cut (Mark.readText .interpolation) body)).count '"' % 2 = 1))
  | quoted .double _ => isFalse id
  | word _ => isFalse id

/-- A literal with a double quote outside its interpolations. -/
def ShowsQuote : Literal → Prop
  | word _ => False
  | quoted .double _ => True
  | quoted .single body => '"' ∈ blanked (cut (Mark.readText .interpolation) body)

instance : DecidablePred ShowsQuote
  | word _ => isFalse id
  | quoted .double _ => isTrue trivial
  | quoted .single body =>
    inferInstanceAs (Decidable ('"' ∈ blanked (cut (Mark.readText .interpolation) body)))

/-- Behind the first pass, a double-quoted text still has no double quote in it. -/
theorem Sound.free_double (hl : l.Sound) (h : l.Swapped .interpolation all l₁) :
    l₁.Free .double := by
  cases h with
  | word cs => exact hl.2 .double
  | hidden hmark => exact absurd hmark (Quote.mark_ne_interpolation _)
  | inner hmark hbody =>
    rintro rfl
    exact Mark.not_mem_number_cut hl.1 _ _

/-- A literal that leaves a double quote open behind the first pass did so before. -/
theorem Swapped.leavesOpen (h : l.Swapped .interpolation all l₁) (hopens : l₁.Opens .double) :
    l.LeavesOpen := by
  cases h with
  | word cs => exact hopens
  | hidden hmark => exact absurd hmark (Quote.mark_ne_interpolation _)
  | @inner q body n hmark hbody =>
    obtain ⟨hq, hodd⟩ := hopens
    rw [Quote.char, count_number (by decide) (by decide) (by decide)] at hodd
    cases q with
    | double => exact absurd rfl hq
    | single => exact hodd

/-- A double quote that is there behind the first pass was there before, outside of
interpolations. -/
theorem Sound.showsQuote (hl : l.Sound) (h : l.Swapped .interpolation all l₁)
    (hmem : '"' ∈ l₁.text) : l.ShowsQuote := by
  cases h with
  | word cs => exact absurd hmem (hl.2 .double)
  | hidden hmark => exact absurd hmark (Quote.mark_ne_interpolation _)
  | @inner q body n hmark hbody =>
    cases q with
    | double => trivial
    | single =>
      simp only [text, Quote.char, List.mem_cons, List.mem_append, List.not_mem_nil, or_false,
        mem_number (show isInner '"' = false by decide) (show '"' ≠ '{' by decide)] at hmem
      rw [ShowsQuote, mem_blanked (by decide)]
      simpa using hmem

/-- Once double-quoted texts are hidden, no single quote can be missed. -/
theorem Sound.free_single (hl : l.Sound) (h₁ : l.Swapped .interpolation all l₁)
    (h₂ : l₁.Swapped .double doubles l₂) : l₂.Free .single ∧ ¬l₂.Opens .single := by
  cases h₁ with
  | word cs =>
    cases h₂ with
    | word cs => exact ⟨hl.2 .single, id⟩
  | hidden hmark => exact absurd hmark (Quote.mark_ne_interpolation _)
  | @inner q body n hmark hbody =>
    cases h₂ with
    | hidden hmark =>
      exact ⟨Mark.not_mem_holder (isNumber_toDigits _) (by decide) (by decide), id⟩
    | inner hmark =>
      cases q with
      | double => exact absurd rfl hmark
      | single =>
        refine ⟨fun _ => ?_, fun hopens => hopens.1 rfl⟩
        exact Mark.not_mem_number_cut (Mark.not_mem_number_cut hl.1 _ _) _ _

/-- What a list has in the place of a literal in the end: a placeholder for the body of a quoted
text, with placeholders for what is inside. -/
inductive Hidden (p : Placeholders) : Literal → List Char → Prop where
  | word (cs : List Char) : Hidden p (.word cs) cs
  | quoted {q : Quote} {body : List Char} {k n d : Nat}
      (hget : p.get? q.mark (Nat.toDigits 10 k) =
        some (Placeholders.recorded n d (cut (Mark.readText .interpolation) body)))
      (hinterpolations : taken (cut (Mark.readText .interpolation) body) <+:
        p.interpolations.drop n)
      (hdoubles : taken (cut (Mark.readText .double)
        (Placeholders.number .interpolation n (cut (Mark.readText .interpolation) body))) <+:
          p.doubles.drop d) :
      Hidden p (.quoted q body) (q.mark.holder (Nat.toDigits 10 k))

/-- Behind all three passes a word stands for each literal. A quoted text is hidden by the pass
for its quotes, and what is recorded for it is what the passes before have left of it. -/
theorem Sound.exists_hidden {p : Placeholders} (hl : l.Sound)
    (h₁ : l.Swapped .interpolation p.interpolations l₁) (h₂ : l₁.Swapped .double p.doubles l₂)
    (h₃ : l₂.Swapped .single p.singles l₃) : ∃ v, l₃ = .word v ∧ Hidden p l v := by
  have hget : ∀ (m : Mark) (k : Nat), p.get? m (Nat.toDigits 10 k) = (p.texts m)[k]? := by
    intro m k
    rw [Placeholders.get?, ofDigits_toDigits]
  cases h₁ with
  | word cs =>
    cases h₂ with
    | word cs =>
      cases h₃ with
      | word cs => exact ⟨cs, rfl, .word cs⟩
  | hidden hmark => exact absurd hmark (Quote.mark_ne_interpolation _)
  | @inner q body n hmark hinterpolations =>
    cases h₂ with
    | @hidden _ _ k hmark hbody =>
      cases h₃ with
      | word cs =>
        cases q with
        | single => cases hmark
        | double =>
          -- There is no quote in it to be taken out.
          have hcut := Mark.cut_text_append_of_not_mem (m := .double)
            (Mark.not_mem_number_cut hl.1 .interpolation n) []
          rw [List.append_nil, cut_nil, List.append_nil] at hcut
          refine ⟨_, rfl, .quoted (n := n) (d := 0) ?_ hinterpolations ?_⟩
          · rw [Placeholders.recorded, hcut, number_chars]
            exact (hget .double k).trans hbody
          · rw [hcut, taken_chars]
            exact List.nil_prefix
    | @inner _ _ d hmark hdoubles =>
      cases q with
      | double => exact absurd rfl hmark
      | single =>
        cases h₃ with
        | @hidden _ _ k hmark hbody =>
          exact ⟨_, rfl, .quoted ((hget .single k).trans hbody) hinterpolations hdoubles⟩
        | inner hmark => exact absurd rfl hmark

/-- The body of a quoted text comes back, unless something in it reads like a placeholder. -/
theorem Hidden.agree_restore {p : Placeholders} (hp : p.Marked) {q : Quote} {body v : List Char}
    (h : Hidden p (.quoted q body) v) :
    Agree (p.Quiet (cut (Mark.readText .interpolation) body)) (p.restore v) body := by
  cases h with
  | quoted hget hinterpolations hdoubles =>
    have hagree := Placeholders.agree_fill_recorded hp _ hinterpolations hdoubles
    rwa [← Placeholders.restore_holder (isNumber_toDigits _) hget,
      Mark.written_cut_interpolation] at hagree

end Literal

namespace Placeholders

variable {β : Type} {frame : β → List Char} {fs : List (β × Literal)}

/-- The interpolations that are taken out are written as such. -/
theorem marked_substitute (raw : List Char) : (substitute raw).1.Marked := by
  intro text hmem
  change text ∈ spans (Mark.readText .interpolation) raw at hmem
  rw [spans_eq_taken] at hmem
  induction raw using cut_induction (Mark.readText .interpolation) with
  | nil => simp [cut_nil, taken] at hmem
  | char c cs hnone ih =>
    rw [cut_of_outcome_none hnone] at hmem
    exact ih hmem
  | span c cs text' rest hsome ih =>
    rw [cut_of_outcome_some hsome] at hmem
    rcases List.mem_cons.1 hmem with rfl | hmem
    · obtain ⟨expression, -, rfl, -⟩ := Mark.outcome_interpolation_eq_some_iff.1 hsome
      rfl
    · exact ih hmem

/-- Every literal becomes a placeholder of its own, for what is between its quotes. -/
theorem exists_hidden (hframe : ∀ f ∈ fs, Plain (frame f.1)) (hsound : ∀ f ∈ fs, f.2.Sound)
    (hopen : fs.Pairwise fun f g => f.2.LeavesOpen → ¬g.2.ShowsQuote) :
    ∃ hs : List (β × List Char),
      (substitute (laid frame fs)).2 = hs.flatMap (fun h => frame h.1 ++ h.2) ∧
        List.Forall₂ (fun f h => h.1 = f.1 ∧ f.2.Hidden (substitute (laid frame fs)).1 h.2)
          fs hs := by
  -- The first pass, for interpolations.
  obtain ⟨hcut, -⟩ := cut_interpolation_laid hframe hsound
  obtain ⟨fs₁, hswap, hfs₁⟩ := exists_swapped_laid hcut
  have hpass₁ := (List.forall₂_and_left fs fs₁).2
    ⟨fun f hf => And.intro (hframe f hf) (hsound f hf), hfs₁⟩
  have hframe₁ : ∀ f ∈ fs₁, Plain (frame f.1) := by
    refine forall_mem_of_forall₂ hpass₁ ?_
    rintro f f₁ ⟨⟨hf, -⟩, heq, -⟩
    rwa [heq]
  have hfree₁ : ∀ f ∈ fs₁, f.2.Free .double := by
    refine forall_mem_of_forall₂ hpass₁ ?_
    rintro f f₁ ⟨⟨-, hl⟩, -, hswapped⟩
    exact hl.free_double hswapped
  have hopen₁ : fs₁.Pairwise fun f g => f.2.Opens .double → Quote.double.char ∉ g.2.text := by
    refine pairwise_of_forall₂ hpass₁ hopen ?_
    rintro f g f₁ g₁ ⟨-, -, hf⟩ ⟨⟨-, hl⟩, -, hg⟩ hclear hopens hmem
    exact hclear (hf.leavesOpen hopens) (hl.showsQuote hg hmem)
  -- The second pass, for double-quoted texts.
  have hcut₂ : cut (Mark.readText .double) (laid frame fs₁) = laidPieces frame .double fs₁ :=
    cut_quote_laid .double hframe₁ hfree₁ hopen₁
  obtain ⟨fs₂, hswap₂, hfs₂⟩ := exists_swapped_laid hcut₂
  have hpass₂ := forall₂_comp hpass₁ hfs₂
  have hframe₂ : ∀ f ∈ fs₂, Plain (frame f.1) := by
    refine forall_mem_of_forall₂ hpass₂ ?_
    rintro f f₂ ⟨f₁, ⟨⟨hf, -⟩, heq, -⟩, heq₂, -⟩
    rwa [heq₂, heq]
  have hfree₂ : ∀ f ∈ fs₂, f.2.Free .single ∧ ¬f.2.Opens .single := by
    refine forall_mem_of_forall₂ hpass₂ ?_
    rintro f f₂ ⟨f₁, ⟨⟨-, hl⟩, -, hswapped⟩, -, hswapped₂⟩
    exact hl.free_single hswapped hswapped₂
  have hopen₂ : fs₂.Pairwise fun f g => f.2.Opens .single → Quote.single.char ∉ g.2.text :=
    List.pairwise_of_forall_mem_list fun f hf g _ hopens => absurd hopens (hfree₂ f hf).2
  -- The third pass, for single-quoted texts, after which words are left.
  have hcut₃ : cut (Mark.readText .single) (laid frame fs₂) = laidPieces frame .single fs₂ :=
    cut_quote_laid .single hframe₂ (fun f hf => (hfree₂ f hf).1) hopen₂
  obtain ⟨fs₃, hswap₃, hfs₃⟩ := exists_swapped_laid hcut₃
  simp only [substitute, hswap, hswap₂, hswap₃]
  refine ⟨fs₃.map fun f => (f.1, f.2.text), ?_, ?_⟩
  · rw [List.flatMap_map]
    rfl
  · rw [List.forall₂_map_right_iff]
    refine (forall₂_comp hpass₂ hfs₃).imp ?_
    rintro f f₃ ⟨f₂, ⟨f₁, ⟨⟨-, hl⟩, heq, h₁⟩, heq₂, h₂⟩, heq₃, h₃⟩
    obtain ⟨v, hv, hhidden⟩ := hl.exists_hidden
      (p := ⟨spans _ (laid frame fs), spans _ (laid frame fs₁), spans _ (laid frame fs₂)⟩) h₁ h₂ h₃
    rw [hv]
    exact ⟨heq₃.trans (heq₂.trans heq), hhidden⟩

end Placeholders

end Offside.Attribute
