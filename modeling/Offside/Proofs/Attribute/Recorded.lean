import Offside.Proofs.Attribute.Placeholder

/-!
# What comes back of a recorded text

The text between two quotes is recorded with placeholders inside it, for its interpolations and
for the double-quoted texts in it. `Placeholders.agree_fill_recorded` says what comes back when
these are filled in again: the text itself, exactly if nothing in it reads like a placeholder that
a text is recorded for.
-/

set_option autoImplicit false

namespace Offside

open Character

/-! ### Reading up to a character -/

namespace Character

variable {close : Char} {body cs rest : List Char}

/-- Reading up to a character looks at one character after the other. -/
theorem outcome_upTo_cons (close c : Char) (cs : List Char) :
    Reader.outcome (upTo close) (c :: cs) =
      if c = close then some ([], cs)
      else (Reader.outcome (upTo close) cs).map fun out => (c :: out.1, out.2) := by
  unfold Reader.outcome
  rw [upTo]
  split
  · rfl
  · cases upTo close cs <;> rfl

theorem outcome_upTo (h : close ∉ body) (rest : List Char) :
    Reader.outcome (upTo close) (body ++ close :: rest) = some (body, rest) := by
  induction body with
  | nil => rw [List.nil_append, outcome_upTo_cons, if_pos rfl]
  | cons c body ih =>
    rw [List.mem_cons, not_or] at h
    rw [List.cons_append, outcome_upTo_cons, if_neg (Ne.symm h.1), ih h.2]
    rfl

theorem outcome_upTo_of_not_mem (h : close ∉ cs) : Reader.outcome (upTo close) cs = none := by
  induction cs with
  | nil => rfl
  | cons c cs ih =>
    rw [List.mem_cons, not_or] at h
    rw [outcome_upTo_cons, if_neg (Ne.symm h.1), ih h.2]
    rfl

/-- What is read up to a character is what stands in front of the first one. -/
theorem outcome_upTo_eq_some_iff :
    Reader.outcome (upTo close) cs = some (body, rest) ↔
      close ∉ body ∧ cs = body ++ close :: rest := by
  constructor
  · intro h
    by_cases hmem : close ∈ cs
    · obtain ⟨body', rest', rfl, hbody⟩ := List.eq_append_cons_of_mem hmem
      rw [outcome_upTo hbody] at h
      obtain ⟨rfl, rfl⟩ := Prod.mk.inj (Option.some.inj h)
      exact ⟨hbody, rfl⟩
    · rw [outcome_upTo_of_not_mem hmem] at h
      cases h
  · rintro ⟨hbody, rfl⟩
    exact outcome_upTo hbody rest

end Character

namespace Interpolation

theorem outcome_readLive (cs : List Char) :
    Reader.outcome readLive ('#' :: '{' :: cs) = Reader.outcome (upTo '}') cs := by
  unfold Reader.outcome
  rw [readLive]
  cases upTo '}' cs <;> rfl

theorem outcome_readLive_of_ne {cs : List Char} (h : ¬['#', '{'] <+: cs) :
    Reader.outcome readLive cs = none := by
  unfold Reader.outcome
  rw [readLive.eq_def]
  split
  · next rest => exact absurd ⟨rest, rfl⟩ h
  · rfl

end Interpolation

namespace Attribute

/-! ### Pieces of a text -/

section Pieces

variable {m : Mark} {cs rest : List Char} {c : Char} {n : Nat} {ps qs : List (Piece (List Char))}

/-- The texts that were taken out. -/
def taken (ps : List (Piece (List Char))) : List (List Char) :=
  ps.filterMap fun
    | .char _ => none
    | .span text => some text

/-- The pieces one after the other. -/
def written (ps : List (Piece (List Char))) : List Char :=
  ps.flatMap fun
    | .char c => [c]
    | .span text => text

/-- The pieces one after the other, with a blank in the place of each text that was taken out. -/
def blanked (ps : List (Piece (List Char))) : List Char :=
  ps.flatMap fun
    | .char c => [c]
    | .span _ => [' ']

/-- The spans of a text are what is taken out when it is cut. -/
theorem spans_eq_taken (read : Reader (List Char)) (cs : List Char) :
    spans read cs = taken (cut read cs) := by
  rw [spans, taken]
  congr 1
  funext piece
  cases piece <;> rfl

theorem taken_cons_char : taken (.char c :: ps) = taken ps :=
  rfl

theorem taken_append : taken (ps ++ qs) = taken ps ++ taken qs :=
  List.filterMap_append

theorem blanked_append : blanked (ps ++ qs) = blanked ps ++ blanked qs :=
  List.flatMap_append

theorem taken_chars (cs : List Char) : taken (cs.map .char) = [] := by
  induction cs with
  | nil => rfl
  | cons c cs ih => exact ih

/-- What is recorded behind some texts. -/
theorem prefix_drop_of_append {front later all : List (List Char)}
    (h : front ++ later <+: all.drop n) : later <+: all.drop (n + front.length) := by
  obtain ⟨rest, heq⟩ := h
  refine ⟨rest, ?_⟩
  rw [← List.drop_drop, ← heq, List.append_assoc, List.drop_left]

/-- The pieces of a text are numbered through: those behind go on where those in front stopped.
-/
theorem number_append (m : Mark) (n : Nat) (ps qs : List (Piece (List Char))) :
    Placeholders.number m n (ps ++ qs) =
      Placeholders.number m n ps ++ Placeholders.number m (n + (taken ps).length) qs := by
  induction ps generalizing n with
  | nil => rfl
  | cons piece ps ih =>
    cases piece with
    | char c => exact congrArg (c :: ·) (ih n)
    | span text =>
      have hcount : n + (taken (.span text :: ps)).length = n + 1 + (taken ps).length := by
        rw [Nat.add_assoc, Nat.add_comm 1]
        rfl
      rw [List.cons_append, Placeholders.number, Placeholders.number, ih, hcount, List.append_assoc]

/-- Characters alone are written as they are. -/
theorem number_chars (m : Mark) (n : Nat) (cs : List Char) :
    Placeholders.number m n (cs.map .char) = cs := by
  induction cs with
  | nil => rfl
  | cons c cs ih => exact congrArg (c :: ·) ih

/-- A character that no placeholder holds was there before. -/
theorem mem_number (hc : isInner c = false) (hbrace : c ≠ '{') :
    c ∈ Placeholders.number m n ps ↔ .char c ∈ ps := by
  induction ps generalizing n with
  | nil => exact iff_of_false List.not_mem_nil List.not_mem_nil
  | cons piece ps ih =>
    cases piece with
    | char d =>
      rw [Placeholders.number, List.mem_cons, List.mem_cons, ih, Piece.char.injEq]
    | span text =>
      have hholder : c ∉ m.holder (Nat.toDigits 10 n) :=
        Mark.not_mem_holder (isNumber_toDigits n) hc hbrace
      rw [Placeholders.number, List.mem_append, List.mem_cons, ih]
      simp [hholder]

/-- A character that no placeholder holds is there as often as it was between the texts. -/
theorem count_number (hc : isInner c = false) (hbrace : c ≠ '{') (hblank : c ≠ ' ') :
    (Placeholders.number m n ps).count c = (blanked ps).count c := by
  induction ps generalizing n with
  | nil => rfl
  | cons piece ps ih =>
    cases piece with
    | char d =>
      change (d :: Placeholders.number m n ps).count c = (d :: blanked ps).count c
      rw [List.count_cons, List.count_cons, ih]
    | span text =>
      change (m.holder (Nat.toDigits 10 n) ++ _).count c = (' ' :: blanked ps).count c
      rw [List.count_append, ih, List.count_cons_of_ne (Ne.symm hblank),
        List.count_eq_zero_of_not_mem (Mark.not_mem_holder (isNumber_toDigits n) hc hbrace),
        Nat.zero_add]

/-- Apart from blanks, what is left between the texts are their pieces that are characters. -/
theorem mem_blanked (hc : c ≠ ' ') : c ∈ blanked ps ↔ .char c ∈ ps := by
  induction ps with
  | nil => exact iff_of_false List.not_mem_nil List.not_mem_nil
  | cons piece ps ih =>
    cases piece with
    | char d =>
      change c ∈ d :: blanked ps ↔ _
      rw [List.mem_cons, List.mem_cons, ih, Piece.char.injEq]
    | span text =>
      change c ∈ ' ' :: blanked ps ↔ _
      rw [List.mem_cons, List.mem_cons, ih]
      simp [hc]

/-- Placeholders and blanks both end a run of characters that placeholders can hold. -/
theorem takeWhile_number (m : Mark) (n : Nat) (ps : List (Piece (List Char))) :
    (Placeholders.number m n ps).takeWhile isInner = (blanked ps).takeWhile isInner := by
  induction ps with
  | nil => rfl
  | cons piece ps ih =>
    cases piece with
    | char c =>
      change (c :: Placeholders.number m n ps).takeWhile isInner =
        (c :: blanked ps).takeWhile isInner
      rw [List.takeWhile_cons, List.takeWhile_cons, ih]
    | span text =>
      change (m.holder (Nat.toDigits 10 n) ++ _).takeWhile isInner =
        (' ' :: blanked ps).takeWhile isInner
      rw [Mark.holder_eq_cons, List.cons_append, List.takeWhile_cons_of_neg (by decide),
        List.takeWhile_cons_of_neg (by decide)]

end Pieces

/-! ### Texts of one kind -/

namespace Mark

variable {m : Mark} {cs : List Char} {c : Char}

/-- What a text of a kind starts with. -/
def first : Mark → Char
  | interpolation => '#'
  | double => '"'
  | single => '\''

theorem outcome_readInterpolation (cs : List Char) :
    Reader.outcome interpolation.readText cs =
      (Reader.outcome Interpolation.readLive cs).map fun out =>
        ('#' :: '{' :: out.1 ++ ['}'], out.2) :=
  @Reader.outcome_map _ _ Interpolation.readLive
    (fun expression => '#' :: '{' :: expression ++ ['}']) cs

/-- An interpolation starts with a hash and a brace and goes up to the next closing brace. -/
theorem outcome_interpolation (cs : List Char) :
    Reader.outcome interpolation.readText ('#' :: '{' :: cs) =
      (Reader.outcome (upTo '}') cs).map fun out => ('#' :: '{' :: out.1 ++ ['}'], out.2) := by
  rw [outcome_readInterpolation, Interpolation.outcome_readLive]

theorem outcome_interpolation_of_ne (h : ¬['#', '{'] <+: cs) :
    Reader.outcome interpolation.readText cs = none := by
  rw [outcome_readInterpolation, Interpolation.outcome_readLive_of_ne h]
  rfl

/-- A text of some kind is read only where its first character stands. -/
theorem outcome_readText_of_ne (h : c ≠ m.first) (cs : List Char) :
    Reader.outcome m.readText (c :: cs) = none := by
  have hquoted : ∀ quote, c ≠ quote →
      Reader.outcome (readText.readQuoted quote) (c :: cs) = none := by
    intro quote hne
    unfold Reader.outcome
    rw [readText.readQuoted, if_neg hne]
    rfl
  cases m with
  | interpolation =>
    apply outcome_interpolation_of_ne
    rintro ⟨rest, heq⟩
    exact h (List.cons.inj heq).1.symm
  | double => exact hquoted '"' h
  | single => exact hquoted '\'' h

theorem cut_text_of_ne (h : c ≠ m.first) (cs : List Char) :
    cut m.readText (c :: cs) = .char c :: cut m.readText cs :=
  cut_of_outcome_none (outcome_readText_of_ne h cs)

/-- In front of the first character that can start a text, all pieces are characters. -/
theorem cut_text_append_of_not_mem {xs : List Char} (h : m.first ∉ xs) (ys : List Char) :
    cut m.readText (xs ++ ys) = xs.map .char ++ cut m.readText ys := by
  induction xs with
  | nil => rfl
  | cons c xs ih =>
    rw [List.mem_cons, not_or] at h
    rw [List.cons_append, cut_text_of_ne (Ne.symm h.1), ih h.2]
    rfl

/-- Taking texts out changes nothing up to the first character that no placeholder holds. -/
theorem takeWhile_blanked_cut (m : Mark) (cs : List Char) :
    (blanked (cut m.readText cs)).takeWhile isInner = cs.takeWhile isInner := by
  have hfirst : isInner m.first = false := by cases m <;> decide
  induction cs with
  | nil => rw [cut_nil]; rfl
  | cons c cs ih =>
    by_cases hc : c = m.first
    · subst hc
      rw [List.takeWhile_cons_of_neg (by simp [hfirst])]
      match h : Reader.outcome m.readText (m.first :: cs) with
      | none =>
        rw [cut_of_outcome_none h]
        exact List.takeWhile_cons_of_neg (by simp [hfirst])
      | some (text, rest) =>
        rw [cut_of_outcome_some h]
        exact List.takeWhile_cons_of_neg (by decide)
    · rw [cut_text_of_ne hc]
      change (c :: blanked (cut m.readText cs)).takeWhile isInner = _
      rw [List.takeWhile_cons, List.takeWhile_cons, ih]

end Mark

/-- The two kinds of quotes. -/
inductive Quote where
  | double
  | single
deriving DecidableEq, Repr

namespace Quote

variable {q : Quote} {body cs : List Char}

/-- The quote as it is written. -/
def char : Quote → Char
  | double => '"'
  | single => '\''

/-- The kind of text between two such quotes. -/
def mark : Quote → Mark
  | double => .double
  | single => .single

theorem isInner_char (q : Quote) : isInner q.char = false := by
  cases q <;> decide

theorem char_ne_brace (q : Quote) : q.char ≠ '{' := by
  cases q <;> decide

theorem mark_ne_interpolation (q : Quote) : q.mark ≠ .interpolation := by
  cases q <;> decide

theorem mark_first (q : Quote) : q.mark.first = q.char := by
  cases q <;> rfl

/-- Behind a quote, the text goes up to the next quote of that kind. -/
theorem outcome_readText (q : Quote) (cs : List Char) :
    Reader.outcome q.mark.readText (q.char :: cs) = Reader.outcome (upTo q.char) cs := by
  have hread : ∀ c : Char, Reader.outcome (Mark.readText.readQuoted c) (c :: cs) =
      Reader.outcome (upTo c) cs := by
    intro c
    unfold Reader.outcome
    rw [Mark.readText.readQuoted, if_pos rfl]
    cases upTo c cs <;> rfl
  cases q with
  | double => exact hread '"'
  | single => exact hread '\''

/-- A text between quotes is recorded without them, and has no quote of its kind in it. -/
theorem outcome_readText_eq_some_iff (q : Quote) {text rest : List Char} :
    Reader.outcome q.mark.readText cs = some (text, rest) ↔
      q.char ∉ text ∧ cs = q.char :: text ++ [q.char] ++ rest := by
  constructor
  · intro h
    match cs with
    | [] => cases length_lt_of_outcome h
    | c :: cs =>
      by_cases hc : c = q.mark.first
      · rw [hc, q.mark_first, q.outcome_readText, outcome_upTo_eq_some_iff] at h
        rw [hc, q.mark_first, h.2]
        exact ⟨h.1, by simp⟩
      · rw [Mark.outcome_readText_of_ne hc] at h
        cases h
  · rintro ⟨htext, rfl⟩
    rw [show q.char :: text ++ [q.char] ++ rest = q.char :: (text ++ q.char :: rest) by simp,
      q.outcome_readText, outcome_upTo htext]

/-- A quoted text is cut out as one span. -/
theorem cut_quoted (h : q.char ∉ body) (rest : List Char) :
    cut q.mark.readText (q.char :: (body ++ q.char :: rest)) =
      .span body :: cut q.mark.readText rest :=
  cut_of_outcome_some (by rw [outcome_readText, outcome_upTo h])

theorem cut_of_not_mem (h : q.char ∉ cs) :
    cut q.mark.readText (q.char :: cs) = .char q.char :: cut q.mark.readText cs :=
  cut_of_outcome_none (by rw [outcome_readText, outcome_upTo_of_not_mem h])

end Quote

namespace Mark

variable {m : Mark} {cs text rest : List Char}

/-- An interpolation is recorded as it is written. -/
theorem outcome_interpolation_eq_some_iff :
    Reader.outcome interpolation.readText cs = some (text, rest) ↔
      ∃ expression, '}' ∉ expression ∧ text = '#' :: '{' :: expression ++ ['}'] ∧
        cs = text ++ rest := by
  constructor
  · intro h
    by_cases hcs : ['#', '{'] <+: cs
    · obtain ⟨cs, rfl⟩ := hcs
      rw [show ['#', '{'] ++ cs = '#' :: '{' :: cs from rfl, outcome_interpolation] at h
      obtain ⟨⟨expression, rest'⟩, hread, heq⟩ := Option.map_eq_some_iff.1 h
      obtain ⟨rfl, rfl⟩ := Prod.mk.inj heq
      obtain ⟨hexpression, rfl⟩ := outcome_upTo_eq_some_iff.1 hread
      exact ⟨expression, hexpression, rfl, by simp⟩
    · rw [outcome_interpolation_of_ne hcs] at h
      cases h
  · rintro ⟨expression, hexpression, rfl, rfl⟩
    have hcs : '#' :: '{' :: expression ++ ['}'] ++ rest =
        '#' :: '{' :: (expression ++ '}' :: rest) := by simp
    rw [hcs, outcome_interpolation, outcome_upTo hexpression]
    rfl

/-- A text is recorded with or without what encloses it. -/
theorem eq_append_of_outcome (h : Reader.outcome m.readText cs = some (text, rest)) :
    ∃ opening closing, cs = opening ++ text ++ closing ++ rest := by
  cases m with
  | interpolation =>
    obtain ⟨-, -, -, rfl⟩ := outcome_interpolation_eq_some_iff.1 h
    exact ⟨[], [], by simp⟩
  | double => exact ⟨['"'], ['"'], (Quote.double.outcome_readText_eq_some_iff.1 h).2⟩
  | single => exact ⟨['\''], ['\''], (Quote.single.outcome_readText_eq_some_iff.1 h).2⟩

/-- Reading goes on behind what was read. -/
theorem suffix_of_outcome (h : Reader.outcome m.readText cs = some (text, rest)) : rest <:+ cs := by
  obtain ⟨opening, closing, rfl⟩ := eq_append_of_outcome h
  exact List.suffix_append _ rest

theorem mem_of_char_mem_cut_text {c : Char} (h : .char c ∈ cut m.readText cs) : c ∈ cs :=
  mem_of_char_mem_cut suffix_of_outcome h

/-- Taking texts out of a text without a quote leaves one without it. -/
theorem not_mem_number_cut {q : Quote} (h : q.char ∉ cs) (m : Mark) (n : Nat) :
    q.char ∉ Placeholders.number m n (cut m.readText cs) := by
  rw [mem_number q.isInner_char q.char_ne_brace]
  exact fun hmem => h (mem_of_char_mem_cut_text hmem)

/-- Interpolations are recorded as they are written, so nothing is lost when they are cut out.
-/
theorem written_cut_interpolation (cs : List Char) :
    written (cut interpolation.readText cs) = cs := by
  induction cs using cut_induction interpolation.readText with
  | nil =>
    rw [cut_nil]
    rfl
  | char c cs hnone ih =>
    rw [cut_of_outcome_none hnone]
    exact congrArg (c :: ·) ih
  | span c cs text rest hsome ih =>
    obtain ⟨-, -, -, heq⟩ := outcome_interpolation_eq_some_iff.1 hsome
    rw [cut_of_outcome_some hsome, heq]
    exact congrArg (text ++ ·) ih

end Mark

/-! ### Texts that agree under a condition -/

/-- Texts that differ in a character behind a common front. -/
def Diverge (xs ys : List Char) : Prop :=
  ∃ front c d xs' ys', xs = front ++ c :: xs' ∧ ys = front ++ d :: ys' ∧ c ≠ d

/-- Texts that are the same if a condition holds, and diverge if it does not. Unlike a mere
difference, this is kept if more text follows. -/
def Agree (P : Prop) (xs ys : List Char) : Prop :=
  (P → xs = ys) ∧ (¬P → Diverge xs ys)

namespace Agree

variable {P Q : Prop} {xs ys xs' ys' : List Char}

theorem of_eq (hP : P) (h : xs = ys) : Agree P xs ys :=
  ⟨fun _ => h, fun hnot => absurd hP hnot⟩

theorem congr (h : Agree P xs ys) (hPQ : P ↔ Q) : Agree Q xs ys := by
  rwa [← hPQ]

/-- Texts that agree under a condition are the same exactly if it holds. -/
theorem eq_iff (h : Agree P xs ys) : xs = ys ↔ P := by
  refine ⟨fun heq => ?_, h.1⟩
  by_contra hP
  obtain ⟨front, c, d, xs', ys', hxs, hys, hne⟩ := h.2 hP
  rw [hxs, hys] at heq
  exact hne (List.cons.inj (List.append_cancel_left heq)).1

/-- Texts that agree, one behind the other, agree if both conditions hold. If the first two
diverge, so do the longer texts, and otherwise the place where the others diverge is moved. -/
theorem append (h : Agree P xs ys) (h' : Agree Q xs' ys') :
    Agree (P ∧ Q) (xs ++ xs') (ys ++ ys') := by
  refine ⟨fun ⟨hP, hQ⟩ => by rw [h.1 hP, h'.1 hQ], fun hnot => ?_⟩
  by_cases hP : P
  · obtain ⟨front, c, d, zs, zs', hxs, hys, hne⟩ := h'.2 fun hQ => hnot ⟨hP, hQ⟩
    refine ⟨ys ++ front, c, d, zs, zs', ?_, ?_, hne⟩
    · rw [h.1 hP, hxs, List.append_assoc]
    · rw [hys, List.append_assoc]
  · obtain ⟨front, c, d, zs, zs', hxs, hys, hne⟩ := h.2 hP
    refine ⟨front, c, d, zs ++ xs', zs' ++ ys', ?_, ?_, hne⟩
    · rw [hxs, List.append_assoc]
      rfl
    · rw [hys, List.append_assoc]
      rfl

/-- A common front changes nothing. -/
theorem append_left (h : Agree P xs ys) (cs : List Char) : Agree P (cs ++ xs) (cs ++ ys) :=
  ((of_eq trivial rfl).append h).congr (and_iff_right trivial)

end Agree

/-! ### Filling in -/

namespace Placeholders

variable {p : Placeholders} {m : Mark} {ms : List Mark} {cs xs ys : List Char} {n d : Nat}
  {ps : List (Piece (List Char))}

/-- Nothing in a text reads like a placeholder of the given kind with a recorded text. -/
def Inert (p : Placeholders) (m : Mark) (cs : List Char) : Prop :=
  ∀ digits ∈ spans m.readHolder cs, p.get? m digits = none

instance (p : Placeholders) (m : Mark) (cs : List Char) : Decidable (p.Inert m cs) :=
  inferInstanceAs (Decidable (∀ digits ∈ spans m.readHolder cs, p.get? m digits = none))

theorem inert_nil (p : Placeholders) (m : Mark) : p.Inert m [] := by
  rw [Inert, spans, cut_nil]
  exact List.forall_mem_nil _

/-- A character that is no brace does not matter. -/
theorem inert_cons_of_ne {c : Char} (h : c ≠ '{') : p.Inert m (c :: cs) ↔ p.Inert m cs := by
  rw [Inert, Mark.spans_cons_of_ne h]
  rfl

/-- Behind a character that no placeholder holds, a text can be looked at separately. -/
theorem inert_append (hys : ∀ d ∈ ys.head?, isInner d = false) :
    p.Inert m (xs ++ ys) ↔ p.Inert m xs ∧ p.Inert m ys := by
  rw [Inert, spans, Mark.cut_append hys, List.filterMap_append, List.forall_mem_append]
  rfl

/-- Behind a brace, the placeholder that it may start counts as well. -/
theorem inert_brace :
    p.Inert m ('{' :: cs) ↔ (∀ digits ∈ m.leading cs, p.get? m digits = none) ∧ p.Inert m cs := by
  rw [Inert, Mark.spans_brace, List.forall_mem_append]
  simp only [Option.mem_toList, Option.mem_def]
  rfl

/-- A brace agrees with itself if it starts no placeholder with a recorded text, and gives way
to something else otherwise. -/
theorem agree_fill_brace {P : Prop} (hp : p.Marked) (h : Agree P (p.fill ms xs) ys) :
    Agree (p.Bare ms xs ∧ P) (p.fill ms ('{' :: xs)) ('{' :: ys) := by
  by_cases hbare : p.Bare ms xs
  · rw [fill_brace_of_bare hp hbare]
    exact (h.append_left ['{']).congr (and_iff_right hbare).symm
  · obtain ⟨c, rest, heq, hc⟩ := fill_brace_of_not_bare hp hbare
    refine ⟨fun hand => absurd hand.1 hbare, fun _ => ?_⟩
    exact ⟨[], c, '{', rest, ys, heq, rfl, hc⟩

/-- The first of some recorded texts is found under its number. -/
theorem get?_toDigits {text : List Char} {later : List (List Char)}
    (h : text :: later <+: (p.texts m).drop n) :
    p.get? m (Nat.toDigits 10 n) = some text ∧ later <+: (p.texts m).drop (n + 1) := by
  obtain ⟨rest, hrest⟩ := h
  constructor
  · have hget : ((p.texts m).drop n)[0]? = some text := by
      rw [← hrest]
      rfl
    rw [get?, ofDigits_toDigits]
    simpa using hget
  · refine ⟨rest, ?_⟩
    rw [← List.tail_drop, ← hrest]
    rfl

/-- A text with placeholders for its interpolations comes back. -/
theorem agree_fill_interpolations (hp : p.Marked) (hms : .interpolation ∉ ms)
    (hrecorded : taken ps <+: p.interpolations.drop n) :
    Agree (∀ m ∈ .interpolation :: ms, p.Inert m (blanked ps))
      (p.fill (.interpolation :: ms) (number .interpolation n ps)) (written ps) := by
  induction ps generalizing n with
  | nil =>
    refine .of_eq (fun m _ => inert_nil p m) ?_
    exact fill_nil p _
  | cons piece ps ih =>
    cases piece with
    | char c =>
      have htaken : taken ps <+: p.interpolations.drop n := hrecorded
      change Agree (∀ m ∈ .interpolation :: ms, p.Inert m (c :: blanked ps))
        (p.fill _ (c :: number .interpolation n ps)) (c :: written ps)
      by_cases hc : c = '{'
      · subst hc
        refine (agree_fill_brace hp (ih htaken)).congr ?_
        simp only [inert_brace, Bare, forall_and,
          Mark.leading_congr (takeWhile_number .interpolation n ps)]
      · rw [fill_cons_of_ne hc]
        refine ((ih htaken).append_left [c]).congr ?_
        simp only [inert_cons_of_ne hc]
    | span text =>
      obtain ⟨hget, htaken⟩ := get?_toDigits (p := p) (m := .interpolation) hrecorded
      change Agree (∀ m ∈ .interpolation :: ms, p.Inert m (' ' :: blanked ps))
        (p.fill _ (_ ++ number .interpolation (n + 1) ps)) (text ++ written ps)
      rw [fill_holder hp hms (isNumber_toDigits n) hget]
      refine ((ih htaken).append_left text).congr ?_
      simp only [inert_cons_of_ne (show ' ' ≠ '{' by decide)]

/-- What a text between quotes shows to the pass that puts texts of a kind back. Interpolations
come back last. The double-quoted texts in it come back with the pass for double quotes, so that
only the pass for interpolations looks into them. -/
def exposed (ps : List (Piece (List Char))) (m : Mark) : List Char :=
  if m = .interpolation then blanked ps else blanked (cut (Mark.readText .double) (blanked ps))

/-- Nothing in a text between quotes reads like a placeholder with a recorded text. -/
def Quiet (p : Placeholders) (ps : List (Piece (List Char))) : Prop :=
  ∀ m, p.Inert m (exposed ps m)

instance (p : Placeholders) (ps : List (Piece (List Char))) : Decidable (p.Quiet ps) :=
  decidable_of_iff (∀ m ∈ Mark.all, p.Inert m (exposed ps m))
    ⟨fun h m => h m m.mem_all, fun h m _ => h m⟩

/-- A text between quotes as it is recorded. -/
def recorded (n d : Nat) (ps : List (Piece (List Char))) : List Char :=
  number .double d (cut (Mark.readText .double) (number .interpolation n ps))

/-- What is recorded starts as what it exposes, up to the first character that no placeholder
holds. -/
theorem takeWhile_recorded (n d : Nat) (ps : List (Piece (List Char))) (m : Mark) :
    (recorded n d ps).takeWhile isInner = (exposed ps m).takeWhile isInner := by
  have hexposed : (exposed ps m).takeWhile isInner = (blanked ps).takeWhile isInner := by
    rw [exposed]
    split
    · rfl
    · exact Mark.takeWhile_blanked_cut .double (blanked ps)
  rw [recorded, takeWhile_number, Mark.takeWhile_blanked_cut, takeWhile_number, hexposed]

/-- A quote that no second quote follows is a character like others. -/
theorem cut_double_cons {c : Char} (h : c ≠ '"' ∨ '"' ∉ cs) :
    cut (Mark.readText .double) (c :: cs) = .char c :: cut (Mark.readText .double) cs := by
  by_cases hc : c = '"'
  · subst hc
    exact Quote.cut_of_not_mem (q := .double) (h.resolve_left fun hne => hne rfl)
  · exact Mark.cut_text_of_ne hc cs

theorem exposed_nil (m : Mark) : exposed [] m = [] := by
  rw [exposed, blanked, List.flatMap_nil, cut_nil, blanked, List.flatMap_nil, ite_self]

theorem recorded_nil (n d : Nat) : recorded n d [] = [] := by
  rw [recorded, number, cut_nil, number]

theorem exposed_span (text : List Char) (ps : List (Piece (List Char))) (m : Mark) :
    exposed (.span text :: ps) m = ' ' :: exposed ps m := by
  rw [exposed, exposed]
  split
  · rfl
  · exact congrArg blanked (cut_double_cons (.inl (by decide)))

/-- A placeholder holds no quote, so it is passed when double-quoted texts are cut out. -/
theorem cut_double_holder (n : Nat) (cs : List Char) :
    cut (Mark.readText .double) (Mark.holder .interpolation (Nat.toDigits 10 n) ++ cs) =
      (Mark.holder .interpolation (Nat.toDigits 10 n)).map .char ++
        cut (Mark.readText .double) cs := by
  have hquote : Mark.first .double ∉ Mark.holder .interpolation (Nat.toDigits 10 n) :=
    Mark.not_mem_holder (isNumber_toDigits n) (by decide) (by decide)
  exact Mark.cut_text_append_of_not_mem hquote cs

/-- An interpolation is recorded as its placeholder. -/
theorem recorded_span (n d : Nat) (text : List Char) (ps : List (Piece (List Char))) :
    recorded n d (.span text :: ps) =
      Mark.holder .interpolation (Nat.toDigits 10 n) ++ recorded (n + 1) d ps := by
  rw [recorded, number, cut_double_holder, number_append, number_chars, taken_chars]
  rfl

section Character

variable {c : Char} (hc : c ≠ '"' ∨ .char '"' ∉ ps)

include hc

/-- A character that starts no double-quoted text is shown as it is. -/
theorem exposed_char (m : Mark) : exposed (.char c :: ps) m = c :: exposed ps m := by
  have hblanked : c ≠ '"' ∨ '"' ∉ blanked ps := by rwa [mem_blanked (by decide)]
  rw [exposed, exposed]
  split
  · rfl
  · exact congrArg blanked (cut_double_cons hblanked)

theorem cut_double_char (n : Nat) :
    cut (Mark.readText .double) (number .interpolation n (.char c :: ps)) =
      .char c :: cut (Mark.readText .double) (number .interpolation n ps) :=
  cut_double_cons (by rwa [mem_number (by decide) (by decide)])

/-- A character that starts no double-quoted text is recorded as it is. -/
theorem recorded_char (n d : Nat) : recorded n d (.char c :: ps) = c :: recorded n d ps :=
  congrArg (number .double d) (cut_double_char hc n)

end Character

section Pair

variable {qs : List (Piece (List Char))} (hps : .char '"' ∉ ps)

include hps

/-- A pair of double quotes is cut out with the placeholders that stand between them. -/
theorem cut_double_pair (n : Nat) :
    cut (Mark.readText .double)
        (number .interpolation n (.char '"' :: (ps ++ .char '"' :: qs))) =
      .span (number .interpolation n ps) ::
        cut (Mark.readText .double) (number .interpolation (n + (taken ps).length) qs) := by
  rw [number, number_append]
  refine Quote.cut_quoted (q := .double) ?_ _
  rwa [Quote.char, mem_number (by decide) (by decide)]

/-- A double-quoted text is recorded as its placeholder, with its interpolations numbered
before those behind it. -/
theorem recorded_pair (n d : Nat) :
    recorded n d (.char '"' :: (ps ++ .char '"' :: qs)) =
      Mark.holder .double (Nat.toDigits 10 d) ++ recorded (n + (taken ps).length) (d + 1) qs :=
  congrArg (number .double d) (cut_double_pair hps n)

/-- The other passes do not look into a pair of double quotes. -/
theorem exposed_pair {m : Mark} (hm : m ≠ .interpolation) :
    exposed (.char '"' :: (ps ++ .char '"' :: qs)) m = ' ' :: exposed qs m := by
  have hquote : '"' ∉ blanked ps := by rwa [mem_blanked (by decide)]
  have hblanked : blanked (.char '"' :: (ps ++ .char '"' :: qs)) =
      '"' :: (blanked ps ++ '"' :: blanked qs) :=
    congrArg ('"' :: ·) blanked_append
  rw [exposed, exposed, if_neg hm, if_neg hm, hblanked]
  exact congrArg blanked (Quote.cut_quoted (q := .double) hquote (blanked qs))

/-- Only the pass for interpolations looks into a double-quoted text. -/
theorem inert_exposed_pair (m : Mark) :
    p.Inert m (exposed (.char '"' :: (ps ++ .char '"' :: qs)) m) ↔
      (m = .interpolation → p.Inert m (blanked ps)) ∧ p.Inert m (exposed qs m) := by
  by_cases hm : m = .interpolation
  · have hblanked : blanked (.char '"' :: (ps ++ .char '"' :: qs)) =
        '"' :: (blanked ps ++ '"' :: blanked qs) :=
      congrArg ('"' :: ·) blanked_append
    rw [exposed, exposed, if_pos hm, if_pos hm, hblanked, inert_cons_of_ne (by decide),
      inert_append (by rintro _ ⟨⟩; decide), inert_cons_of_ne (by decide), forall_prop_of_true hm]
  · rw [exposed_pair hps hm, forall_prop_of_false hm, true_and, inert_cons_of_ne (by decide)]

end Pair

/-- Interpolations are put back inside a double-quoted text, and behind it. -/
theorem putBack_double (p : Placeholders) (text cs : List Char) :
    p.putBack .interpolation (Mark.requote .double text ++ cs) =
      '"' :: (p.fill [.interpolation] text ++ '"' :: p.putBack .interpolation cs) := by
  have hquote : ∀ cs, p.putBack .interpolation ('"' :: cs) = '"' :: p.putBack .interpolation cs :=
    fun cs => putBack_of_outcome_none (Mark.outcome_of_ne (by decide) _ cs)
  have hrequote : Mark.requote .double text ++ cs = '"' :: (text ++ '"' :: cs) := by
    simp [Mark.requote]
  rw [hrequote, hquote, putBack_append (by rintro _ ⟨⟩; decide), hquote]
  rfl

section Recorded

variable (hp : p.Marked)

include hp

/-- A character comes back. A brace does so exactly if it starts no placeholder with a recorded
text, and what `Quiet` says of the text behind it is kept. -/
theorem agree_fill_recorded_char {c : Char} (hc : c ≠ '"' ∨ .char '"' ∉ ps)
    (hrest : Agree (p.Quiet ps) (p.fill Mark.all (recorded n d ps)) (written ps)) :
    Agree (p.Quiet (.char c :: ps)) (p.fill Mark.all (recorded n d (.char c :: ps)))
      (c :: written ps) := by
  rw [recorded_char hc]
  by_cases hbrace : c = '{'
  · subst hbrace
    refine (agree_fill_brace hp hrest).congr ?_
    -- The passes see the recorded text, and `Quiet` speaks of what it exposes to each of them.
    have hleading : ∀ m : Mark, m.leading (recorded n d ps) = m.leading (exposed ps m) :=
      fun m => Mark.leading_congr (takeWhile_recorded n d ps m)
    simp only [Quiet, exposed_char hc, inert_brace, forall_and, Bare, Mark.mem_all, forall_const,
      hleading]
  · rw [fill_cons_of_ne hbrace]
    refine (hrest.append_left [c]).congr ?_
    simp only [Quiet, exposed_char hc, inert_cons_of_ne hbrace]

/-- A double-quoted text comes back with its quotes. Its placeholder gives way in the pass for
double quotes, and what is inside is left to the last pass. -/
theorem agree_fill_recorded_pair {qs : List (Piece (List Char))} (hps : .char '"' ∉ ps)
    (hget : p.get? .double (Nat.toDigits 10 d) = some (number .interpolation n ps))
    (hrecorded : taken ps <+: p.interpolations.drop n)
    (hrest : Agree (p.Quiet qs)
      (p.fill Mark.all (recorded (n + (taken ps).length) (d + 1) qs)) (written qs)) :
    Agree (p.Quiet (.char '"' :: (ps ++ .char '"' :: qs)))
      (p.fill Mark.all (recorded n d (.char '"' :: (ps ++ .char '"' :: qs))))
      (written (.char '"' :: (ps ++ .char '"' :: qs))) := by
  -- What is between the quotes comes back before the last pass, which alone looks into it.
  have hinner := agree_fill_interpolations hp
    (show .interpolation ∉ ([] : List Mark) from List.not_mem_nil) hrecorded
  have hwritten : written (.char '"' :: (ps ++ .char '"' :: qs)) =
      '"' :: (written ps ++ '"' :: written qs) :=
    congrArg ('"' :: ·) List.flatMap_append
  rw [recorded_pair hps, Mark.all, fill_cons,
    fill_holder hp (by decide) (isNumber_toDigits d) hget, putBack_double, hwritten]
  refine ((hinner.append (hrest.append_left ['"'])).append_left ['"']).congr ?_
  simp only [Quiet, inert_exposed_pair hps, forall_and, forall_eq, List.forall_mem_singleton]

/-- A text between quotes comes back as it was. -/
theorem agree_fill_recorded (ps : List (Piece (List Char))) {n d : Nat}
    (hinterpolations : taken ps <+: p.interpolations.drop n)
    (hdoubles : taken (cut (Mark.readText .double) (number .interpolation n ps)) <+:
      p.doubles.drop d) :
    Agree (p.Quiet ps) (p.fill Mark.all (recorded n d ps)) (written ps) := by
  -- A pair of quotes is passed at once, so the induction is on the number of pieces.
  induction hlength : ps.length using Nat.strongRecOn generalizing ps n d with
  | _ length ih =>
    match ps with
    | [] =>
      refine .of_eq (fun m => ?_) ?_
      · rw [exposed_nil]
        exact inert_nil p m
      · rw [recorded_nil]
        exact fill_nil p _
    | .span text :: ps =>
      obtain ⟨hget, hlater⟩ := get?_toDigits (p := p) (m := .interpolation) hinterpolations
      rw [number, cut_double_holder, taken_append, taken_chars, List.nil_append] at hdoubles
      have hrest := ih ps.length (by simp [← hlength]) ps hlater hdoubles rfl
      rw [recorded_span, Mark.all, fill_holder hp (by decide) (isNumber_toDigits n) hget]
      refine (hrest.append_left text).congr ?_
      simp only [Quiet, exposed_span, inert_cons_of_ne (show ' ' ≠ '{' by decide)]
    | .char c :: ps =>
      by_cases hc : c ≠ '"' ∨ .char '"' ∉ ps
      · rw [cut_double_char hc] at hdoubles
        have hrest := ih ps.length (by simp [← hlength]) ps hinterpolations hdoubles rfl
        exact agree_fill_recorded_char hp hc hrest
      · rw [not_or, not_not, not_not] at hc
        obtain ⟨rfl, hmem⟩ := hc
        obtain ⟨ps, qs, rfl, hps⟩ := List.eq_append_cons_of_mem hmem
        rw [cut_double_pair hps] at hdoubles
        obtain ⟨hget, hlater⟩ := get?_toDigits (p := p) (m := .double) hdoubles
        rw [taken_cons_char, taken_append, taken_cons_char] at hinterpolations
        have hrest := ih qs.length (by simp [← hlength]; omega) qs
          (prefix_drop_of_append hinterpolations) hlater rfl
        exact agree_fill_recorded_pair hp hps hget ((List.prefix_append _ _).trans hinterpolations)
          hrest

end Recorded

/-- Nothing reads like a placeholder where there are no braces. -/
theorem quiet_of_not_mem (h : '{' ∉ cs) : p.Quiet (cut (Mark.readText .interpolation) cs) := by
  have hblanked : '{' ∉ blanked (cut (Mark.readText .interpolation) cs) := by
    rw [mem_blanked (by decide)]
    exact fun hmem => h (Mark.mem_of_char_mem_cut_text hmem)
  intro m
  have hexposed : '{' ∉ exposed (cut (Mark.readText .interpolation) cs) m := by
    rw [exposed]
    split
    · exact hblanked
    · rw [mem_blanked (by decide)]
      exact fun hmem => hblanked (Mark.mem_of_char_mem_cut_text hmem)
  have hspans := Mark.spans_append_of_not_mem (m := m) hexposed []
  rw [List.append_nil] at hspans
  rw [Inert, hspans]
  exact inert_nil p m

/-- A placeholder for a quoted text stands for that text without its quotes. -/
theorem restore_holder {q : Quote} {digits text : List Char} (hdigits : IsNumber digits)
    (h : p.get? q.mark digits = some text) :
    p.restore (q.mark.holder digits) = p.fill Mark.all text := by
  have htrim : trim isSpace (q.mark.holder digits) = q.mark.holder digits := by
    refine trim_eq_self ?_ ?_
    · rw [Mark.holder_eq_cons]
      rintro _ ⟨⟩
      decide
    · have hlast : (q.mark.holder digits).getLast? = some '}' := by
        cases q <;> simp [Quote.mark, Mark.holder, Mark.closing]
      rw [hlast]
      rintro _ ⟨⟩
      decide
  have hunquote : p.unquote (q.mark.holder digits) = text := by
    cases q with
    | double =>
      rw [unquote, Quote.mark, whole?_holder_of_ne (by decide) hdigits, whole?_holder _ hdigits]
      exact congrArg (Option.getD · _) h
    | single =>
      rw [unquote, Quote.mark, whole?_holder _ hdigits]
      exact congrArg (Option.getD · _) h
  rw [restore_eq_fill, htrim, hunquote]

end Placeholders

end Attribute

end Offside
