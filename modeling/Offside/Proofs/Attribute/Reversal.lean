import Offside.Proofs.Attribute.Literal

/-!
# Substitution is reversible

Every pass that swaps texts of one kind for placeholders has a counterpart that puts them back.
`Placeholders.putBack_number` says that the counterpart undoes the pass on a text in which no
placeholder of that kind is written, and `Mark.absent_number` that a pass writes no placeholders
of another kind, not even together with the characters around the texts that it takes out. So the
three passes are undone one after the other (`Placeholders.fill_substitute`).

Spaces at the ends are trimmed in between, which could as well be done before
(`Placeholders.substitute_trim`). A text that is one quoted run as a whole becomes a single
placeholder, and nothing else does (`Placeholders.exists_isRun_of_eq_holder`); it loses its quotes
(`Placeholders.restore_of_isRun`).
-/

set_option autoImplicit false

namespace Offside

open Offside.Character

namespace Attribute

/-! ### Texts of one kind as they are written -/

namespace Mark

variable {m m' : Mark} {cs text rest xs ys digits : List Char} {n : Nat} {c : Char}

/-- The texts that a pass takes out, as they are recorded. -/
def IsText : Mark → List Char → Prop
  | interpolation, text => ∃ expression, '}' ∉ expression ∧ text = '#' :: '{' :: expression ++ ['}']
  | double, text => '"' ∉ text
  | single, text => '\'' ∉ text

/-- What a text of a kind ends with. -/
def last : Mark → Char
  | interpolation => '}'
  | double => '"'
  | single => '\''

/-- A text of a kind is read exactly where it is written as one. -/
theorem outcome_readText_iff :
    Reader.outcome m.readText cs = some (text, rest) ↔
      m.IsText text ∧ cs = m.requote text ++ rest := by
  cases m with
  | interpolation =>
    rw [outcome_interpolation_eq_some_iff]
    constructor
    · rintro ⟨expression, hexpression, htext, hcs⟩
      exact ⟨⟨expression, hexpression, htext⟩, hcs⟩
    · rintro ⟨⟨expression, hexpression, htext⟩, hcs⟩
      exact ⟨expression, hexpression, htext, hcs⟩
  | double => exact Quote.double.outcome_readText_eq_some_iff
  | single => exact Quote.single.outcome_readText_eq_some_iff

/-- A text of a kind is found where it ends, whatever follows, unless it could end there, too. -/
theorem outcome_readText_append (h : m.last ∉ ys) (c : Char) (xs : List Char) :
    Reader.outcome m.readText (c :: (xs ++ ys)) =
      (Reader.outcome m.readText (c :: xs)).map fun out => (out.1, out.2 ++ ys) := by
  refine outcome_append_of_written outcome_readText_iff (c :: xs)
    fun text zs htext hrequote hzs => ?_
  cases hlast : zs.getLast? with
  | none => exact List.getLast?_eq_none_iff.1 hlast
  | some d =>
    -- What is written for a text ends with the character that may not follow.
    have hd : (m.requote text).getLast? = some m.last := by
      cases m with
      | interpolation =>
        obtain ⟨expression, -, rfl⟩ := htext
        exact List.getLast?_concat
      | double => exact List.getLast?_concat
      | single => exact List.getLast?_concat
    rw [hrequote, List.getLast?_append, hlast, Option.some_or, Option.some.injEq] at hd
    exact absurd (hzs.subset (List.mem_of_getLast? hlast)) (hd ▸ h)

/-- So a text is divided as its two halves are, if no text of the kind could end in the second.
-/
theorem cut_text_append (h : m.last ∉ ys) (xs : List Char) :
    cut m.readText (xs ++ ys) = cut m.readText xs ++ cut m.readText ys :=
  cut_append_of_outcome (outcome_readText_append h) xs

/-! ### Texts without placeholders -/

/-- No placeholder of a kind is written in a text. -/
def Absent (m : Mark) (cs : List Char) : Prop :=
  ∀ digits, IsNumber digits → ¬m.holder digits <:+: cs

theorem absent_nil (m : Mark) : m.Absent [] := by
  intro digits _ hholder
  rw [List.infix_nil, holder_eq_cons] at hholder
  cases hholder

/-- What is written in a part is written in the whole. -/
theorem Absent.of_suffix (h : m.Absent cs) (hsuffix : rest <:+ cs) : m.Absent rest :=
  fun digits hdigits hholder => h digits hdigits (hholder.trans hsuffix.isInfix)

/-- A placeholder is written where a brace starts one. -/
theorem absent_cons : m.Absent (c :: cs) ↔ (c = '{' → m.leading cs = none) ∧ m.Absent cs := by
  constructor
  · intro h
    refine ⟨?_, h.of_suffix (List.suffix_cons c cs)⟩
    rintro rfl
    match hleading : m.leading cs with
    | none => rfl
    | some digits =>
      obtain ⟨hdigits, rest, rfl⟩ := eq_append_of_leading hleading
      rw [← List.cons_append, ← holder_eq_cons] at h
      exact absurd (List.prefix_append _ rest).isInfix (h digits hdigits)
  · rintro ⟨hbrace, h⟩ digits hdigits hholder
    rcases List.infix_cons_iff.1 hholder with ⟨rest, hpre⟩ | hinfix
    · rw [holder_eq_cons, List.cons_append] at hpre
      obtain ⟨rfl, rfl⟩ := List.cons.inj hpre
      have hleading := hbrace rfl
      rw [leading, ← List.cons_append, ← holder_eq_cons, outcome_holder m hdigits] at hleading
      cases hleading
    · exact h digits hdigits hinfix

instance decidableAbsent (m : Mark) : DecidablePred m.Absent
  | [] => isTrue (absent_nil m)
  | _ :: cs =>
    have := decidableAbsent m cs
    decidable_of_iff _ absent_cons.symm

/-- Without a brace in front no placeholder starts there. -/
theorem absent_append_of_not_mem (h : '{' ∉ xs) (hys : m.Absent ys) : m.Absent (xs ++ ys) := by
  induction xs with
  | nil => exact hys
  | cons c xs ih =>
    rw [List.mem_cons, not_or] at h
    exact absent_cons.2 ⟨fun hc => absurd hc.symm h.1, ih h.2⟩

/-- A brace in front of what a pass leaves starts a placeholder only if it did before. -/
theorem leading_number (m m' : Mark) (n : Nat) (cs : List Char) :
    m'.leading (Placeholders.number m n (cut m.readText cs)) = m'.leading cs :=
  leading_congr ((takeWhile_number m n _).trans (takeWhile_blanked_cut m cs))

/-- A pass writes no placeholders of another kind. -/
theorem absent_number (hne : m' ≠ m) (h : m'.Absent cs) (n : Nat) :
    m'.Absent (Placeholders.number m n (cut m.readText cs)) := by
  induction cs using cut_induction m.readText generalizing n with
  | nil =>
    rw [cut_nil]
    exact absent_nil m'
  | char c cs hnone ih =>
    obtain ⟨hbrace, hcs⟩ := absent_cons.1 h
    rw [cut_of_outcome_none hnone]
    refine absent_cons.2 ⟨fun hc => ?_, ih hcs n⟩
    rw [leading_number]
    exact hbrace hc
  | span c cs text rest hsome ih =>
    have hrest := ih (h.of_suffix (suffix_of_outcome hsome)) (n + 1)
    have hdigits := isNumber_toDigits n
    rw [cut_of_outcome_some hsome, Placeholders.number, holder_eq_cons, List.cons_append]
    refine absent_cons.2 ⟨fun _ => leading_tail_of_ne hne hdigits _, ?_⟩
    exact absent_append_of_not_mem (not_mem_tail hdigits) hrest

/-- What a pass leaves without braces is the text itself. -/
theorem number_cut_of_not_mem (h : '{' ∉ Placeholders.number m n (cut m.readText cs)) :
    Placeholders.number m n (cut m.readText cs) = cs := by
  induction cs using cut_induction m.readText with
  | nil => rw [cut_nil, Placeholders.number]
  | char c cs hnone ih =>
    rw [cut_of_outcome_none hnone, Placeholders.number] at h ⊢
    rw [ih fun hmem => h (List.mem_cons_of_mem c hmem)]
  | span c cs text rest hsome ih =>
    rw [cut_of_outcome_some hsome, Placeholders.number, holder_eq_cons] at h
    exact absurd List.mem_cons_self h

/-- A pass leaves a single placeholder only if the text is one, or if it is one text of the kind
that the pass takes out. -/
theorem eq_holder_or_of_number (hdigits : IsNumber digits)
    (h : Placeholders.number m n (cut m.readText cs) = m'.holder digits) :
    cs = m'.holder digits ∨ m' = m ∧ ∃ text, m.IsText text ∧ cs = m.requote text := by
  cases cs with
  | nil =>
    rw [cut_nil, Placeholders.number, holder_eq_cons] at h
    cases h
  | cons c cs =>
    rcases hread : Reader.outcome m.readText (c :: cs) with _ | ⟨text, rest⟩
    · rw [cut_of_outcome_none hread, Placeholders.number, holder_eq_cons] at h
      obtain ⟨rfl, htail⟩ := List.cons.inj h
      have hbrace : '{' ∉ Placeholders.number m n (cut m.readText cs) := by
        rw [htail]
        exact not_mem_tail hdigits
      rw [number_cut_of_not_mem hbrace] at htail
      exact .inl (by rw [htail, holder_eq_cons])
    · obtain ⟨htext, hrequote⟩ := outcome_readText_iff.1 hread
      rw [cut_of_outcome_some hread, Placeholders.number] at h
      -- What is left starts with the placeholder for this text, so nothing else is left.
      have hfirst := outcome_holder m' hdigits []
      rw [List.append_nil, ← h] at hfirst
      obtain rfl : m' = m := by
        by_contra hne
        have hleading := leading_tail_of_ne hne (isNumber_toDigits n)
          (Placeholders.number m (n + 1) (cut m.readText rest))
        rw [leading, ← List.cons_append, ← holder_eq_cons, hfirst] at hleading
        cases hleading
      rw [outcome_holder m' (isNumber_toDigits n)] at hfirst
      have hnil := (Prod.mk.inj (Option.some.inj hfirst)).2
      have hrest := number_cut_of_not_mem (by rw [hnil]; exact List.not_mem_nil)
      obtain rfl := hrest.symm.trans hnil
      exact .inr ⟨rfl, text, htext, by rwa [List.append_nil] at hrequote⟩

end Mark

namespace Placeholders

variable {p : Placeholders} {m : Mark} {cs text rest raw digits : List Char} {n : Nat}

/-! ### Undoing a pass -/

/-- A character stays if no placeholder starts with it. -/
theorem putBack_cons {c : Char} (h : c = '{' → m.leading cs = none) :
    p.putBack m (c :: cs) = c :: p.putBack m cs := by
  by_cases hc : c = '{'
  · subst hc
    refine putBack_brace ?_
    rw [h rfl]
    rintro digits ⟨⟩
  · exact putBack_of_outcome_none (Mark.outcome_of_ne hc m cs)

/-- Putting texts back undoes the pass that took them out. -/
theorem putBack_number (h : m.Absent cs) (hrecorded : spans m.readText cs <+: (p.texts m).drop n) :
    p.putBack m (number m n (cut m.readText cs)) = cs := by
  rw [spans_eq_taken] at hrecorded
  induction cs using cut_induction m.readText generalizing n with
  | nil =>
    rw [cut_nil]
    exact putBack_nil p m
  | char c cs hnone ih =>
    obtain ⟨hbrace, hcs⟩ := Mark.absent_cons.1 h
    rw [cut_of_outcome_none hnone] at hrecorded ⊢
    show p.putBack m (c :: number m n (cut m.readText cs)) = c :: cs
    rw [putBack_cons (by rwa [Mark.leading_number]), ih hcs hrecorded]
  | span c cs text rest hsome ih =>
    obtain ⟨-, hcs⟩ := Mark.outcome_readText_iff.1 hsome
    rw [cut_of_outcome_some hsome] at hrecorded ⊢
    obtain ⟨hget, hlater⟩ := get?_toDigits hrecorded
    rw [number, putBack_holder (isNumber_toDigits n), hget,
      ih (h.of_suffix (Mark.suffix_of_outcome hsome)) hlater, hcs]

/-- A text without placeholders stays as it is. -/
theorem putBack_of_absent (h : m.Absent cs) : p.putBack m cs = cs := by
  induction cs with
  | nil => exact putBack_nil p m
  | cons c cs ih =>
    obtain ⟨hbrace, hcs⟩ := Mark.absent_cons.1 h
    rw [putBack_cons hbrace, ih hcs]

/-- What is left of a text by the pass for interpolations. -/
def unspliced (raw : List Char) : List Char :=
  swap .interpolation raw

/-- What is left of a text by the passes for interpolations and for double quotes. -/
def undoubled (raw : List Char) : List Char :=
  swap .double (unspliced raw)

section Raw

variable (h : ∀ m : Mark, m.Absent raw)

include h

/-- The pass for interpolations writes no placeholders for quoted texts. -/
theorem absent_unspliced (hm : m ≠ .interpolation) : m.Absent (unspliced raw) :=
  Mark.absent_number hm (h m) 0

/-- Nor does the pass for double quotes write any for single quotes. -/
theorem absent_undoubled : Mark.Absent .single (undoubled raw) :=
  Mark.absent_number (by decide) (absent_unspliced h (by decide)) 0

/-- The first pass is undone by its counterpart. -/
theorem putBack_unspliced : (substitute raw).1.putBack .interpolation (unspliced raw) = raw :=
  putBack_number (h .interpolation) List.prefix_rfl

/-- The second pass is undone by its counterpart. -/
theorem putBack_undoubled : (substitute raw).1.putBack .double (undoubled raw) = unspliced raw :=
  putBack_number (absent_unspliced h (by decide)) List.prefix_rfl

/-- The three passes are undone one after the other. -/
theorem fill_substitute : (substitute raw).1.fill Mark.all (substitute raw).2 = raw := by
  have hsingle : (substitute raw).1.putBack .single (substitute raw).2 = undoubled raw :=
    putBack_number (absent_undoubled h) List.prefix_rfl
  show (substitute raw).1.putBack .interpolation ((substitute raw).1.putBack .double
    ((substitute raw).1.putBack .single (substitute raw).2)) = raw
  rw [hsingle, putBack_undoubled h, putBack_unspliced h]

end Raw

/-! ### Spaces at the ends -/

/-- A text with no spaces at its ends. -/
structure Trimmed (cs : List Char) : Prop where
  head : ∀ c ∈ cs.head?, isSpace c = false
  last : ∀ c ∈ cs.getLast?, isSpace c = false

/-- What is trimmed has no space at an end. -/
theorem trimmed_trim (cs : List Char) : Trimmed (trim isSpace cs) :=
  ⟨fun _ => eq_false_of_mem_head?_trim, fun _ => eq_false_of_mem_getLast?_trim⟩

/-- Filling in goes on in front of a character as it would without it. -/
theorem fill_append_singleton {c : Char} (hinner : isInner c = false) (hbrace : c ≠ '{')
    (p : Placeholders) (ms : List Mark) (cs : List Char) :
    p.fill ms (cs ++ [c]) = p.fill ms cs ++ [c] := by
  induction ms with
  | nil => rfl
  | cons m ms ih =>
    have hhead : ∀ d ∈ [c].head?, isInner d = false := by
      rintro _ ⟨⟩
      exact hinner
    have hlast : p.putBack m [c] = [c] := by
      rw [putBack_of_outcome_none (Mark.outcome_of_ne hbrace m []), putBack_nil]
    rw [fill_cons, ih, putBack_append hhead, hlast, fill_cons]

/-- A space at an end of what is left of a text would be there when it is filled in again. -/
theorem trimmed_substitute (h : ∀ m : Mark, m.Absent raw) (htrimmed : Trimmed raw) :
    Trimmed (substitute raw).2 := by
  have hfill := fill_substitute h
  constructor
  · intro c hc
    obtain ⟨rest, heq⟩ := List.head?_eq_some_iff.1 hc
    by_contra hspace
    have hbrace : c ≠ '{' := fun hc => hspace (hc ▸ by decide)
    rw [heq, fill_cons_of_ne hbrace] at hfill
    exact hspace (htrimmed.head c (by rw [← hfill]; rfl))
  · intro c hc
    obtain ⟨front, heq⟩ := List.getLast?_eq_some_iff.1 hc
    by_contra hspace
    have hbrace : c ≠ '{' := fun hc => hspace (hc ▸ by decide)
    have hinner : isInner c = false := by
      simp only [Bool.not_eq_false, isSpace, beq_iff_eq] at hspace
      rw [hspace]
      decide
    rw [heq, fill_append_singleton hinner hbrace] at hfill
    exact hspace (htrimmed.last c (by rw [← hfill, List.getLast?_concat]; rfl))

section Spaces

variable {xs zs : List Char} (hxs : ∀ c ∈ xs, isSpace c = true) (hzs : ∀ c ∈ zs, isSpace c = true)

include hxs hzs

/-- Spaces around a text are cut off as single characters: no text of a kind starts with a
space, or ends with one. -/
theorem cut_text_between (m : Mark) (cs : List Char) :
    cut m.readText (xs ++ cs ++ zs) = xs.map .char ++ (cut m.readText cs ++ zs.map .char) := by
  have hfirst : ∀ ys : List Char, (∀ c ∈ ys, isSpace c = true) → m.first ∉ ys := by
    intro ys hys hmem
    have hspace := hys _ hmem
    cases m <;> simp [Mark.first, isSpace] at hspace
  have hlast : m.last ∉ zs := by
    intro hmem
    have hspace := hzs _ hmem
    cases m <;> simp [Mark.last, isSpace] at hspace
  have hback : cut m.readText zs = zs.map .char := by
    have hcut := Mark.cut_text_append_of_not_mem (hfirst zs hzs) []
    rwa [List.append_nil, cut_nil, List.append_nil] at hcut
  rw [List.append_assoc, Mark.cut_text_append_of_not_mem (hfirst xs hxs),
    Mark.cut_text_append hlast, hback]

/-- Spaces around a text stay around what is left of it, and nothing else is recorded. -/
theorem substitute_between (cs : List Char) :
    substitute (xs ++ cs ++ zs) = ((substitute cs).1, xs ++ (substitute cs).2 ++ zs) := by
  have hswap : ∀ m cs, swap m (xs ++ cs ++ zs) = xs ++ swap m cs ++ zs := by
    intro m cs
    rw [swap, cut_text_between hxs hzs, number_append, number_append, number_chars, number_chars,
      taken_chars, List.append_assoc]
    rfl
  have hspans : ∀ (m : Mark) cs, spans m.readText (xs ++ cs ++ zs) = spans m.readText cs := by
    intro m cs
    rw [spans_eq_taken, cut_text_between hxs hzs, taken_append, taken_append, taken_chars,
      taken_chars, List.nil_append, List.append_nil, spans_eq_taken]
  simp only [substitute, hswap, hspans]

end Spaces

/-- Spaces at the ends may be trimmed first. -/
theorem substitute_trim (h : ∀ m : Mark, m.Absent (trim isSpace raw)) :
    substitute (trim isSpace raw) = ((substitute raw).1, trim isSpace (substitute raw).2) := by
  obtain ⟨xs, zs, hxs, hzs, hraw⟩ := exists_eq_trim_between isSpace raw
  have hbetween := substitute_between hxs hzs (trim isSpace raw)
  rw [← hraw] at hbetween
  have htrimmed := trimmed_substitute h (trimmed_trim raw)
  rw [hbetween, trim_append_append hxs hzs, trim_eq_self htrimmed.head htrimmed.last]

/-! ### Quoted runs -/

variable {q : Quote} {body : List Char}

/-- What the pass for quotes of a kind sees of the text between two of them. Interpolations are
hidden from both passes, and double-quoted texts from the pass for single quotes. -/
def shown : Quote → List Char → List Char
  | .double, body => blanked (cut (Mark.readText .interpolation) body)
  | .single, body =>
    blanked (cut (Mark.readText .double) (blanked (cut (Mark.readText .interpolation) body)))

/-- A text that is one quoted run as a whole: it is enclosed in quotes, and the second one is the
first that closes it. -/
def IsRun (q : Quote) (body cs : List Char) : Prop :=
  cs = q.char :: (body ++ [q.char]) ∧ q.char ∉ shown q body

/-- What the pass for quotes of a kind is given. -/
def given : Quote → List Char → List Char
  | .double, raw => unspliced raw
  | .single, raw => undoubled raw

/-- What is recorded of the text in a run. -/
def inner : Quote → List Char → List Char
  | .double, body => number .interpolation 0 (cut (Mark.readText .interpolation) body)
  | .single, body => recorded 0 0 (cut (Mark.readText .interpolation) body)

/-- A pass for other texts leaves the quotes around a text. -/
theorem swap_enclosed (hfirst : q.char ≠ m.first) (hlast : q.char ≠ m.last) (cs : List Char) :
    swap m (q.char :: (cs ++ [q.char])) = q.char :: (swap m cs ++ [q.char]) := by
  have hend : cut m.readText [q.char] = [.char q.char] := by
    rw [Mark.cut_text_of_ne hfirst, cut_nil]
  have hquote : m.last ∉ [q.char] := fun hmem => hlast (List.mem_singleton.1 hmem).symm
  rw [swap, Mark.cut_text_of_ne hfirst, Mark.cut_text_append hquote, hend, number, number_append]
  rfl

/-- The pass for quotes of a kind finds the quotes around a text as they were. -/
theorem given_enclosed (q : Quote) (body : List Char) :
    given q (q.char :: (body ++ [q.char])) = q.char :: (inner q body ++ [q.char]) := by
  have hunspliced : unspliced (q.char :: (body ++ [q.char])) =
      q.char :: (unspliced body ++ [q.char]) := by
    cases q <;> exact swap_enclosed (by decide) (by decide) body
  cases q with
  | double => exact hunspliced
  | single =>
    show undoubled _ = _
    rw [undoubled, hunspliced]
    exact swap_enclosed (by decide) (by decide) _

/-- Single quotes are seen behind placeholders as they are behind blanks. -/
theorem single_mem_recorded (ps : List (Piece (List Char))) (n d : Nat) :
    '\'' ∈ recorded n d ps ↔ '\'' ∈ exposed ps .single := by
  -- A pair of double quotes is passed at once, so the induction is on the number of pieces.
  induction hlength : ps.length using Nat.strongRecOn generalizing ps n d with
  | _ length ih =>
    match ps with
    | [] => rw [recorded_nil, exposed_nil]
    | .span text :: ps =>
      have hholder : '\'' ∉ Mark.holder .interpolation (Nat.toDigits 10 n) :=
        Mark.not_mem_holder (isNumber_toDigits n) (by decide) (by decide)
      have hrest := ih ps.length (by simp [← hlength]) ps (n + 1) d rfl
      rw [recorded_span, exposed_span, List.mem_append, List.mem_cons, hrest]
      simp [hholder]
    | .char c :: ps =>
      by_cases hc : c ≠ '"' ∨ .char '"' ∉ ps
      · have hrest := ih ps.length (by simp [← hlength]) ps n d rfl
        rw [recorded_char hc, exposed_char hc, List.mem_cons, List.mem_cons, hrest]
      · rw [not_or, not_not, not_not] at hc
        obtain ⟨rfl, hmem⟩ := hc
        obtain ⟨ps, qs, rfl, hps⟩ := List.eq_append_cons_of_mem hmem
        have hholder : '\'' ∉ Mark.holder .double (Nat.toDigits 10 d) :=
          Mark.not_mem_holder (isNumber_toDigits d) (by decide) (by decide)
        have hrest := ih qs.length (by simp [← hlength]; omega) qs (n + (taken ps).length) (d + 1)
          rfl
        rw [recorded_pair hps, exposed_pair hps (by decide), List.mem_append, List.mem_cons, hrest]
        simp [hholder]

/-- The quote occurs in what the pass for it finds exactly if it shows in the text. -/
theorem mem_inner (q : Quote) (body : List Char) :
    q.char ∈ inner q body ↔ q.char ∈ shown q body := by
  cases q with
  | double =>
    show '"' ∈ number _ _ _ ↔ '"' ∈ blanked _
    rw [mem_number (by decide) (by decide), mem_blanked (by decide)]
  | single => exact single_mem_recorded _ 0 0

/-- Putting back leaves a quote at each end alone. -/
theorem fill_enclosed (p : Placeholders) (ms : List Mark) (q : Quote) (cs : List Char) :
    p.fill ms (q.char :: (cs ++ [q.char])) = q.char :: (p.fill ms cs ++ [q.char]) := by
  rw [fill_cons_of_ne q.char_ne_brace, fill_append_singleton q.isInner_char q.char_ne_brace]

/-- The pass for single quotes leaves a placeholder for a double-quoted text. -/
theorem substitute_eq_holder_iff (hdigits : IsNumber digits) :
    (substitute raw).2 = q.mark.holder digits ↔
      swap q.mark (given q raw) = q.mark.holder digits := by
  cases q with
  | single => exact Iff.rfl
  | double =>
    show _ ↔ undoubled raw = Mark.holder .double digits
    constructor
    · intro h
      refine (Mark.eq_holder_or_of_number hdigits h).resolve_right ?_
      rintro ⟨⟨⟩, -⟩
    · intro h
      have hquote : Mark.first .single ∉ Mark.holder .double digits :=
        Mark.not_mem_holder hdigits (by decide) (by decide)
      have hcut := Mark.cut_text_append_of_not_mem hquote []
      rw [List.append_nil, cut_nil, List.append_nil] at hcut
      show swap .single (undoubled raw) = Mark.holder .double digits
      rw [h, swap, hcut, number_chars]

section Runs

variable (h : ∀ m : Mark, m.Absent raw)

include h

/-- Texts that are put back after a pass give back what was written before all passes: the passes
that did not run yet find nothing of theirs. -/
theorem fill_given (q : Quote) : (substitute raw).1.fill Mark.all (given q raw) = raw := by
  show (substitute raw).1.putBack .interpolation ((substitute raw).1.putBack .double
    ((substitute raw).1.putBack .single (given q raw))) = raw
  cases q with
  | double =>
    rw [given, putBack_of_absent (absent_unspliced h (by decide)),
      putBack_of_absent (absent_unspliced h (by decide)), putBack_unspliced h]
  | single =>
    rw [given, putBack_of_absent (absent_undoubled h), putBack_undoubled h, putBack_unspliced h]

/-- What is left of a text is a single placeholder for a quoted text only if the text is a run. -/
theorem exists_isRun_of_eq_holder (hdigits : IsNumber digits)
    (heq : (substitute raw).2 = q.mark.holder digits) : ∃ body, IsRun q body raw := by
  rw [substitute_eq_holder_iff hdigits] at heq
  have habsent : q.mark.Absent (given q raw) := by
    cases q with
    | double => exact absent_unspliced h (by decide)
    | single => exact absent_undoubled h
  have hrequote : ∀ text, q.mark.requote text = q.char :: (text ++ [q.char]) := by
    intro text
    cases q <;> rfl
  obtain hholder | ⟨-, text, htext, hgiven⟩ := Mark.eq_holder_or_of_number hdigits heq
  · exact absurd (hholder ▸ List.infix_rfl) (habsent digits hdigits)
  rw [hrequote] at hgiven
  have hraw := fill_given h q
  rw [hgiven, fill_enclosed] at hraw
  refine ⟨(substitute raw).1.fill Mark.all text, hraw.symm, ?_⟩
  -- What is recorded is the same, so it shows the same quotes.
  have hinner := given_enclosed q ((substitute raw).1.fill Mark.all text)
  rw [hraw, hgiven] at hinner
  have htext' := List.append_cancel_right (List.cons.inj hinner).2
  rw [← mem_inner, ← htext']
  cases q <;> exact htext

/-- A run comes back without its quotes. -/
theorem restore_of_isRun (hrun : IsRun q body raw) :
    (substitute raw).1.restore (substitute raw).2 = body := by
  obtain ⟨hraw, hshown⟩ := hrun
  have hgiven : given q raw = q.char :: (inner q body ++ [q.char]) := by
    rw [hraw, given_enclosed]
  have hcut : cut q.mark.readText (given q raw) = [.span (inner q body)] := by
    rw [hgiven, Quote.cut_quoted (fun hmem => hshown ((mem_inner q body).1 hmem)), cut_nil]
  have hholder : (substitute raw).2 = q.mark.holder (Nat.toDigits 10 0) := by
    rw [substitute_eq_holder_iff (isNumber_toDigits 0), swap, hcut]
    exact List.append_nil _
  have hget : (substitute raw).1.get? q.mark (Nat.toDigits 10 0) = some (inner q body) := by
    have hrecorded : [inner q body] <+: ((substitute raw).1.texts q.mark).drop 0 := by
      have htexts : (substitute raw).1.texts q.mark = spans q.mark.readText (given q raw) := by
        cases q <;> rfl
      rw [htexts, spans_eq_taken, hcut]
      exact List.prefix_rfl
    exact (get?_toDigits hrecorded).1
  have hfill := fill_given h q
  rw [hgiven, fill_enclosed] at hfill
  rw [hholder, restore_holder (isNumber_toDigits 0) hget]
  exact List.append_cancel_right (List.cons.inj (hfill.trans hraw)).2

/-- A text that is no run comes back as it is. -/
theorem restore_of_not_isRun (htrimmed : Trimmed raw) (hrun : ¬∃ q body, IsRun q body raw) :
    (substitute raw).1.restore (substitute raw).2 = raw := by
  have hleft := trimmed_substitute h htrimmed
  have hunquote : (substitute raw).1.unquote (substitute raw).2 = (substitute raw).2 := by
    refine unquote_of_ne fun digits hdigits => ⟨fun heq => hrun ?_, fun heq => hrun ?_⟩
    · exact ⟨.single, exists_isRun_of_eq_holder h hdigits heq⟩
    · exact ⟨.double, exists_isRun_of_eq_holder h hdigits heq⟩
  rw [restore_eq_fill, trim_eq_self hleft.head hleft.last, hunquote, fill_substitute h]

end Runs

/-- What is swapped for placeholders comes back: a text in which none is written is the same in
the end, but for the spaces around it and for the quotes around a text that is one quoted run. -/
theorem restore_undoes_substitute {raw : List Char} (h : ∀ m : Mark, m.Absent raw) :
    (∀ q body, IsRun q body (trim isSpace raw) →
        (substitute raw).1.restore (substitute raw).2 = body) ∧
      ((¬∃ q body, IsRun q body (trim isSpace raw)) →
        (substitute raw).1.restore (substitute raw).2 = trim isSpace raw) := by
  obtain ⟨xs, zs, -, -, hraw⟩ := exists_eq_trim_between isSpace raw
  have htrim : ∀ m : Mark, m.Absent (trim isSpace raw) := by
    intro m digits hdigits hholder
    exact h m digits hdigits (hholder.trans ⟨xs, zs, hraw.symm⟩)
  have hrestore : (substitute raw).1.restore (substitute raw).2 =
      (substitute (trim isSpace raw)).1.restore (substitute (trim isSpace raw)).2 := by
    rw [substitute_trim htrim, restore_eq_fill, restore_eq_fill, trim_trim]
  rw [hrestore]
  constructor
  · intro q body hrun
    exact restore_of_isRun htrim hrun
  · intro hrun
    exact restore_of_not_isRun htrim (trimmed_trim raw) hrun

/-- Two texts between single quotes, one of them a run. -/
theorem restore_undoes_substitute_quoted :
    (∀ m : Mark, m.Absent " 'a #\x7bb\x7d' \"c 'd\" ' ".toList) ∧
      (substitute " 'a #\x7bb\x7d' \"c 'd\" ' ".toList).1.restore
          (substitute " 'a #\x7bb\x7d' \"c 'd\" ' ".toList).2 =
        "'a #\x7bb\x7d' \"c 'd\" '".toList ∧
      (substitute " 'a #\x7b'b\x7d \"c' d\"' ".toList).1.restore
          (substitute " 'a #\x7b'b\x7d \"c' d\"' ".toList).2 =
        "a #\x7b'b\x7d \"c' d\"".toList := by
  have habsent : ∀ m : Mark, m.Absent " 'a #\x7bb\x7d' \"c 'd\" ' ".toList := by
    intro m
    cases m <;> decide
  have habsent' : ∀ m : Mark, m.Absent " 'a #\x7b'b\x7d \"c' d\"' ".toList := by
    intro m
    cases m <;> decide
  refine ⟨habsent, (restore_undoes_substitute habsent).2 ?_,
    (restore_undoes_substitute habsent').1 .single _ ⟨by decide, by decide +kernel⟩⟩
  have htrim : trim isSpace " 'a #\x7bb\x7d' \"c 'd\" ' ".toList =
      "'a #\x7bb\x7d' \"c 'd\" '".toList := by decide
  rw [htrim]
  rintro ⟨q, body, heq, hshown⟩
  have hbody : body = "a #\x7bb\x7d' \"c 'd\" ".toList := by
    have hinner := congrArg (fun cs => cs.tail.dropLast) heq
    simpa using hinner.symm
  subst hbody
  cases q with
  | double => exact absurd heq (by decide)
  | single => exact hshown (by decide +kernel)

end Placeholders

end Attribute

end Offside
