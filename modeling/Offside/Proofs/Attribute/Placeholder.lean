import Mathlib.Data.List.TakeWhile
import Offside.Proofs.Token.Local

/-!
# Putting placeholders back

Texts are swapped for placeholders in three passes and put back in three passes. A text that
holds something written like a placeholder is the trouble: it cannot be told from the
placeholders that stand for recorded texts.
-/

set_option autoImplicit false

namespace Offside

/-! ### Cutting a text -/

namespace Character

variable {α : Type} {read : Reader α} {c : Char} {cs rest : List Char} {a : α}

theorem length_lt_of_outcome (h : Reader.outcome read cs = some (a, rest)) :
    rest.length < cs.length := by
  obtain ⟨⟨a', rest', hlt⟩, -, heq⟩ := Option.map_eq_some_iff.1 h
  obtain ⟨-, rfl⟩ := Prod.mk.inj heq
  exact hlt

/-- Where nothing is read, a character is a piece by itself. -/
theorem cut_of_outcome_none (h : Reader.outcome read (c :: cs) = none) :
    cut read (c :: cs) = .char c :: cut read cs :=
  cut_of_none (Option.map_eq_none_iff.1 h)

/-- Where something is read, it is a piece, and cutting goes on behind it. -/
theorem cut_of_outcome_some (h : Reader.outcome read (c :: cs) = some (a, rest)) :
    cut read (c :: cs) = .span a :: cut read rest := by
  obtain ⟨⟨a', rest', hlt⟩, hread, heq⟩ := Option.map_eq_some_iff.1 h
  obtain ⟨rfl, rfl⟩ : a' = a ∧ rest' = rest := Prod.mk.inj heq
  exact cut_of_some hread

/-- Induction along the pass that cuts a text: over a character, or over a span at once. -/
theorem cut_induction (read : Reader α) {motive : List Char → Prop} (nil : motive [])
    (char : ∀ c cs, Reader.outcome read (c :: cs) = none → motive cs → motive (c :: cs))
    (span : ∀ c cs a rest, Reader.outcome read (c :: cs) = some (a, rest) → motive rest →
      motive (c :: cs)) (cs : List Char) : motive cs := by
  induction hlength : cs.length using Nat.strongRecOn generalizing cs with
  | _ length ih =>
    match cs with
    | [] => exact nil
    | c :: cs =>
      match houtcome : Reader.outcome read (c :: cs) with
      | none => exact char c cs houtcome (ih cs.length (by simp [← hlength]) cs rfl)
      | some (a, rest) =>
        have hlt := length_lt_of_outcome houtcome
        exact span c cs a rest houtcome (ih rest.length (hlength ▸ hlt) rest rfl)

/-- A reader that finds what is written in some way finds it in front of a text if it finds it at
all, unless what is written could go on into that text. -/
theorem outcome_append_of_written {Valid : α → Prop} {written : α → List Char} {ys : List Char}
    (hread : ∀ {cs a rest}, Reader.outcome read cs = some (a, rest) ↔
      Valid a ∧ cs = written a ++ rest) (xs : List Char)
    (hends : ∀ a zs, Valid a → written a = xs ++ zs → zs <+: ys → zs = []) :
    Reader.outcome read (xs ++ ys) =
      (Reader.outcome read xs).map fun out => (out.1, out.2 ++ ys) := by
  match hxs : Reader.outcome read xs with
  | some (a, rest) =>
    obtain ⟨ha, rfl⟩ := hread.1 hxs
    exact hread.2 ⟨ha, List.append_assoc ..⟩
  | none =>
    match happ : Reader.outcome read (xs ++ ys) with
    | none => rfl
    | some (a, rest) =>
      obtain ⟨ha, heq⟩ := hread.1 happ
      -- It ends in front of `ys`, so it would have been found without `ys`.
      obtain ⟨zs, hzs⟩ : ∃ zs, xs = written a ++ zs := by
        rcases List.append_eq_append_iff.1 heq with ⟨zs, hwritten, hys⟩ | ⟨zs, hzs, -⟩
        · obtain rfl := hends a zs ha hwritten ⟨rest, hys.symm⟩
          exact ⟨[], by simpa using hwritten.symm⟩
        · exact ⟨zs, hzs⟩
      rw [hread.2 ⟨ha, hzs⟩] at hxs
      cases hxs

/-- A text is cut as it is alone if what follows does not matter to the spans in it. -/
theorem cut_append_of_outcome {ys : List Char}
    (hread : ∀ c xs, Reader.outcome read (c :: (xs ++ ys)) =
      (Reader.outcome read (c :: xs)).map fun out => (out.1, out.2 ++ ys)) (xs : List Char) :
    cut read (xs ++ ys) = cut read xs ++ cut read ys := by
  induction xs using cut_induction read with
  | nil => rw [cut_nil, List.nil_append, List.nil_append]
  | char c xs hnone ih =>
    have hread := hread c xs
    rw [hnone] at hread
    rw [List.cons_append, cut_of_outcome_none hread, cut_of_outcome_none hnone, ih,
      List.cons_append]
  | span c xs a rest hsome ih =>
    have hread := hread c xs
    rw [hsome] at hread
    rw [List.cons_append, cut_of_outcome_some hread, cut_of_outcome_some hsome, ih,
      List.cons_append]

/-- The characters between the spans are those of the text. -/
theorem mem_of_char_mem_cut
    (hread : ∀ {cs a rest}, Reader.outcome read cs = some (a, rest) → rest <:+ cs)
    (h : .char c ∈ cut read cs) : c ∈ cs := by
  induction cs using cut_induction read with
  | nil => simp [cut_nil] at h
  | char d cs hnone ih =>
    rw [cut_of_outcome_none hnone, List.mem_cons, Piece.char.injEq] at h
    exact List.mem_cons.2 (h.imp_right ih)
  | span d cs a rest hsome ih =>
    rw [cut_of_outcome_some hsome, List.mem_cons] at h
    exact (hread hsome).subset (ih (h.resolve_left nofun))

/-! ### Replacing spans -/

theorem replaceSpans_nil (read : Reader α) (write : α → List Char) :
    replaceSpans read write [] = [] := by
  rw [replaceSpans, cut_nil]
  rfl

theorem replaceSpans_of_outcome_none (write : α → List Char)
    (h : Reader.outcome read (c :: cs) = none) :
    replaceSpans read write (c :: cs) = c :: replaceSpans read write cs := by
  rw [replaceSpans, cut_of_outcome_none h]
  rfl

theorem replaceSpans_of_outcome_some (write : α → List Char)
    (h : Reader.outcome read (c :: cs) = some (a, rest)) :
    replaceSpans read write (c :: cs) = write a ++ replaceSpans read write rest := by
  rw [replaceSpans, cut_of_outcome_some h]
  rfl

end Character

namespace Attribute

open Character

/-! ### Placeholders in a text -/

/-- The characters of a placeholder, behind its brace. -/
def isInner (c : Char) : Bool :=
  c.isDigit || c == '<' || c == '>' || c == '}'

/-- What stands between the marks of a placeholder. -/
def IsNumber (digits : List Char) : Prop :=
  digits ≠ [] ∧ ∀ c ∈ digits, c.isDigit = true

/-- Numbers are written with digits, and with at least one. -/
theorem isNumber_toDigits (n : Nat) : IsNumber (Nat.toDigits 10 n) :=
  ⟨Nat.toDigits_ne_nil, fun _ hc => Nat.isDigit_of_mem_toDigits (by decide) (by decide) hc⟩

theorem ofDigits_toDigits (n : Nat) : ofDigits (Nat.toDigits 10 n) = n :=
  Nat.ofDigitChars_ten_toDigits

theorem ne_brace_of_isInner {c : Char} (h : isInner c = true) : c ≠ '{' := by
  rintro rfl
  exact absurd h (by decide)

namespace Mark

variable {m : Mark} {cs rest digits : List Char}

/-- All kinds, in the order in which their texts are taken out. -/
def all : List Mark :=
  [interpolation, double, single]

theorem mem_all (m : Mark) : m ∈ all := by
  cases m <;> decide

/-- A placeholder behind its brace. -/
def tail (m : Mark) (digits : List Char) : List Char :=
  m.opening.tail ++ digits ++ m.closing

/-- A placeholder of any kind starts with a brace. -/
theorem holder_eq_cons (m : Mark) (digits : List Char) :
    m.holder digits = '{' :: m.tail digits := by
  cases m <;> rfl

/-- A placeholder has one brace, at its start. -/
theorem isInner_of_mem_tail (h : IsNumber digits) : ∀ c ∈ m.tail digits, isInner c = true := by
  intro c hc
  rw [tail, List.mem_append, List.mem_append] at hc
  have hopening : ∀ m : Mark, ∀ c ∈ m.opening.tail, isInner c = true := by
    rintro (_ | _ | _) <;> decide
  have hclosing : ∀ m : Mark, ∀ c ∈ m.closing, isInner c = true := by
    rintro (_ | _ | _) <;> decide
  rcases hc with (hc | hc) | hc
  · exact hopening m c hc
  · simp [isInner, h.2 c hc]
  · exact hclosing m c hc

theorem not_mem_tail (h : IsNumber digits) : '{' ∉ m.tail digits :=
  fun hmem => ne_brace_of_isInner (isInner_of_mem_tail h _ hmem) rfl

variable {c : Char} {ys : List Char}

/-- Quotes, separators and delimiters are not in a placeholder. -/
theorem not_mem_holder (h : IsNumber digits) (hc : isInner c = false)
    (hbrace : c ≠ '{') : c ∉ m.holder digits := by
  rw [holder_eq_cons, List.mem_cons, not_or]
  refine ⟨hbrace, fun hmem => ?_⟩
  rw [isInner_of_mem_tail h c hmem] at hc
  cases hc

/-- What is read as a placeholder is one as it is written, with at least one digit. -/
theorem eq_holder_of_outcome (h : Reader.outcome m.readHolder cs = some (digits, rest)) :
    cs = m.holder digits ++ rest ∧ IsNumber digits := by
  obtain ⟨⟨digits', rest', hlt⟩, hread, heq⟩ := Option.map_eq_some_iff.1 h
  obtain ⟨rfl, rfl⟩ : digits' = digits ∧ rest' = rest := Prod.mk.inj heq
  unfold readHolder at hread
  split at hread
  · cases hread
  · next inner hopening =>
    dsimp only at hread
    split at hread
    · cases hread
    · next hdigits =>
      split at hread
      · cases hread
      · next rest hclosing =>
        obtain ⟨rfl, hrest⟩ := Prod.mk.inj (Option.some.inj hread)
        obtain rfl := congrArg Subtype.val hrest
        have hinner := List.takeWhile_append_dropWhile (p := Char.isDigit) (l := inner)
        rw [after?_eq_some_iff.1 hclosing] at hinner
        refine ⟨?_, hdigits, fun c hc => List.mem_takeWhile_imp hc⟩
        rw [holder, List.append_assoc, List.append_assoc, hinner, ← after?_eq_some_iff]
        exact hopening

/-- A placeholder is read whatever follows it: its closing mark is no digit, so the digits end
there. -/
theorem outcome_holder (m : Mark) (hdigits : IsNumber digits) (rest : List Char) :
    Reader.outcome m.readHolder (m.holder digits ++ rest) = some (digits, rest) := by
  have hstop : ∀ c ∈ (m.closing ++ rest).head?, c.isDigit = false := by
    intro c hc
    cases m <;> (obtain rfl := Option.some.inj hc; decide)
  have htake := takeWhile_append_of_stop hdigits.2 hstop
  have hdrop := dropWhile_append_of_stop hdigits.2 hstop
  have hopening : after? m.opening (m.holder digits ++ rest) =
      some (digits ++ (m.closing ++ rest)) := by
    rw [after?_eq_some_iff, holder, List.append_assoc, List.append_assoc]
  have hclosing : after? m.closing ((digits ++ (m.closing ++ rest)).dropWhile Char.isDigit) =
      some rest := by
    rw [hdrop, after?_eq_some_iff]
  unfold Reader.outcome readHolder
  split
  · next h =>
    rw [hopening] at h
    cases h
  · next inner h =>
    obtain rfl := Option.some.inj (hopening.symm.trans h)
    simp only [htake, if_neg hdigits.1]
    split
    · next h' =>
      rw [hclosing] at h'
      cases h'
    · next rest' h' =>
      obtain rfl := Option.some.inj (hclosing.symm.trans h')
      rfl

/-- Only a brace starts a placeholder. -/
theorem outcome_of_ne (h : c ≠ '{') (m : Mark) (cs : List Char) :
    Reader.outcome m.readHolder (c :: cs) = none := by
  match hread : Reader.outcome m.readHolder (c :: cs) with
  | none => rfl
  | some (digits, rest) =>
    obtain ⟨heq, -⟩ := eq_holder_of_outcome hread
    rw [holder_eq_cons] at heq
    exact absurd (List.cons.inj heq).1 h

/-- A placeholder does not go on beyond a character that it cannot hold, so it is found in
front of such a character if it is found at all. -/
theorem outcome_append (hys : ∀ d ∈ ys.head?, isInner d = false) (c : Char)
    (xs : List Char) : Reader.outcome m.readHolder (c :: (xs ++ ys)) =
      (Reader.outcome m.readHolder (c :: xs)).map fun out => (out.1, out.2 ++ ys) := by
  have hread : ∀ {cs digits rest}, Reader.outcome m.readHolder cs = some (digits, rest) ↔
      IsNumber digits ∧ cs = m.holder digits ++ rest := by
    intro cs digits rest
    refine ⟨fun h => (eq_holder_of_outcome h).symm, ?_⟩
    rintro ⟨hdigits, rfl⟩
    exact outcome_holder m hdigits rest
  refine outcome_append_of_written hread (c :: xs) fun digits zs hdigits hholder hzs => ?_
  -- What would be left of the placeholder is at the start of `ys`.
  cases zs with
  | nil => rfl
  | cons d zs =>
    rw [holder_eq_cons] at hholder
    have hmem : d ∈ m.tail digits := by
      rw [(List.cons.inj hholder).2]
      exact List.mem_append_right _ List.mem_cons_self
    obtain ⟨rest, rfl⟩ := hzs
    have hinner := isInner_of_mem_tail hdigits d hmem
    rw [hys d rfl] at hinner
    cases hinner

/-- The digits of the placeholder that a brace in front of a text starts, if it starts one. -/
def leading (m : Mark) (cs : List Char) : Option (List Char) :=
  (Reader.outcome m.readHolder ('{' :: cs)).map Prod.fst

/-- What stops a run of characters that placeholders can hold. -/
theorem isInner_of_mem_head?_dropWhile (cs : List Char) :
    ∀ d ∈ (cs.dropWhile isInner).head?, isInner d = false := by
  intro d hd
  have hhead := List.head?_dropWhile_not isInner cs
  rw [Option.mem_def.1 hd] at hhead
  simpa using hhead

/-- Only the characters that a placeholder can hold decide whether a brace starts one. -/
theorem leading_congr {xs : List Char} (h : xs.takeWhile isInner = ys.takeWhile isInner) :
    m.leading xs = m.leading ys := by
  have hleading : ∀ cs, m.leading cs = m.leading (cs.takeWhile isInner) := by
    intro cs
    have happend := outcome_append (m := m) (isInner_of_mem_head?_dropWhile cs) '{'
      (cs.takeWhile isInner)
    rw [List.takeWhile_append_dropWhile] at happend
    rw [leading, leading, happend, Option.map_map]
    rfl
  rw [hleading xs, hleading ys, h]

/-- A brace that starts a placeholder has the rest of the placeholder behind it. -/
theorem eq_append_of_leading (h : m.leading cs = some digits) :
    IsNumber digits ∧ ∃ rest, cs = m.tail digits ++ rest := by
  obtain ⟨⟨digits', rest⟩, hread, rfl⟩ := Option.map_eq_some_iff.1 h
  obtain ⟨heq, hdigits⟩ := eq_holder_of_outcome hread
  rw [holder_eq_cons] at heq
  exact ⟨hdigits, rest, (List.cons.inj heq).2⟩

/-! ### Cutting out placeholders -/

/-- A placeholder is cut out as one span. -/
theorem cut_holder (m : Mark) (hdigits : IsNumber digits) (rest : List Char) :
    cut m.readHolder (m.holder digits ++ rest) = .span digits :: cut m.readHolder rest := by
  have hread := outcome_holder m hdigits rest
  rw [holder_eq_cons] at hread ⊢
  exact cut_of_outcome_some hread

/-- Placeholders are found separately in front of a character that none can hold and behind. -/
theorem cut_append (hys : ∀ d ∈ ys.head?, isInner d = false) (xs : List Char) :
    cut m.readHolder (xs ++ ys) = cut m.readHolder xs ++ cut m.readHolder ys :=
  cut_append_of_outcome (outcome_append hys) xs

theorem spans_cons_of_ne (h : c ≠ '{') (cs : List Char) :
    spans m.readHolder (c :: cs) = spans m.readHolder cs := by
  rw [spans, spans, cut_of_outcome_none (outcome_of_ne h m cs), List.filterMap_cons]

/-- Text without braces holds no placeholder. -/
theorem spans_append_of_not_mem {xs : List Char} (h : '{' ∉ xs) (ys : List Char) :
    spans m.readHolder (xs ++ ys) = spans m.readHolder ys := by
  induction xs with
  | nil => rfl
  | cons c xs ih =>
    rw [List.mem_cons, not_or] at h
    rw [List.cons_append, spans_cons_of_ne (Ne.symm h.1), ih h.2]

/-- The placeholders of a text behind a brace are the one that the brace starts and the others. -/
theorem spans_brace (cs : List Char) :
    spans m.readHolder ('{' :: cs) = (m.leading cs).toList ++ spans m.readHolder cs := by
  match hleading : m.leading cs with
  | none =>
    rw [spans, cut_of_outcome_none (Option.map_eq_none_iff.1 hleading), List.filterMap_cons]
    rfl
  | some digits =>
    obtain ⟨hdigits, rest, rfl⟩ := eq_append_of_leading hleading
    rw [spans_append_of_not_mem (not_mem_tail hdigits), ← List.cons_append, ← holder_eq_cons,
      spans, cut_holder m hdigits, List.filterMap_cons]
    rfl

/-- A placeholder of one kind is not read as one of another kind. -/
theorem leading_tail_of_ne {m' : Mark} (h : m' ≠ m) (hdigits : IsNumber digits)
    (rest : List Char) : m'.leading (m.tail digits ++ rest) = none := by
  -- The kinds differ in the marks behind the brace, and no digit is such a mark.
  have hmarks : ∀ (m : Mark) {digits : List Char}, IsNumber digits → ∀ rest,
      (m.tail digits ++ rest).takeWhile (· == '<') = m.opening.tail := by
    intro m digits hdigits rest
    have hstop : ∀ c ∈ (digits ++ m.closing ++ rest).head?, (c == '<') = false := by
      intro c hc
      obtain ⟨d, ds, rfl⟩ := List.exists_cons_of_ne_nil hdigits.1
      obtain rfl := Option.some.inj hc
      rw [beq_eq_false_iff_ne]
      rintro rfl
      exact absurd (hdigits.2 _ List.mem_cons_self) (by decide)
    rw [tail, List.append_assoc, List.append_assoc, ← List.append_assoc digits]
    refine takeWhile_append_of_stop ?_ hstop
    cases m <;> decide
  match hleading : m'.leading (m.tail digits ++ rest) with
  | none => rfl
  | some digits' =>
    obtain ⟨hdigits', rest', heq⟩ := eq_append_of_leading hleading
    have hopening := hmarks m hdigits rest
    rw [heq, hmarks m' hdigits' rest'] at hopening
    have hinj : ∀ m m' : Mark, m'.opening.tail = m.opening.tail → m' = m := by
      rintro (_ | _ | _) (_ | _ | _) <;> decide
    exact absurd (hinj m m' hopening) h

end Mark

/-! ### Putting texts back -/

namespace Placeholders

variable {p : Placeholders} {m : Mark} {cs digits text : List Char}

theorem putBack_nil (p : Placeholders) (m : Mark) : p.putBack m [] = [] :=
  replaceSpans_nil _ _

theorem putBack_of_outcome_none {c : Char} (h : Reader.outcome m.readHolder (c :: cs) = none) :
    p.putBack m (c :: cs) = c :: p.putBack m cs :=
  replaceSpans_of_outcome_none _ h

/-- Texts are put back separately in front of a character that no placeholder holds and behind.
-/
theorem putBack_append {ys : List Char} (hys : ∀ d ∈ ys.head?, isInner d = false)
    (xs : List Char) : p.putBack m (xs ++ ys) = p.putBack m xs ++ p.putBack m ys := by
  simp only [putBack, replaceSpans, Mark.cut_append hys, List.flatMap_append]

/-- Text without braces stays as it is. -/
theorem putBack_append_of_not_mem {xs : List Char} (h : '{' ∉ xs) (ys : List Char) :
    p.putBack m (xs ++ ys) = xs ++ p.putBack m ys := by
  induction xs with
  | nil => rfl
  | cons c xs ih =>
    rw [List.mem_cons, not_or] at h
    rw [List.cons_append, putBack_of_outcome_none (Mark.outcome_of_ne (Ne.symm h.1) m _), ih h.2]
    rfl

/-- A placeholder gives way to its text, or stays if nothing is recorded for it. -/
theorem putBack_holder (hdigits : IsNumber digits) (rest : List Char) :
    p.putBack m (m.holder digits ++ rest) =
      (match p.get? m digits with
        | some text => m.requote text
        | none => m.holder digits) ++ p.putBack m rest := by
  rw [putBack, replaceSpans, Mark.cut_holder m hdigits, List.flatMap_cons]
  rfl

/-- A brace stays where it does not start a placeholder, or one that nothing is recorded for. -/
theorem putBack_brace (h : ∀ digits ∈ m.leading cs, p.get? m digits = none) :
    p.putBack m ('{' :: cs) = '{' :: p.putBack m cs := by
  match hleading : m.leading cs with
  | none => exact putBack_of_outcome_none (Option.map_eq_none_iff.1 hleading)
  | some digits =>
    obtain ⟨hdigits, rest, rfl⟩ := Mark.eq_append_of_leading hleading
    rw [← List.cons_append, ← Mark.holder_eq_cons, putBack_holder hdigits, h _ hleading,
      Mark.holder_eq_cons, putBack_append_of_not_mem (Mark.not_mem_tail hdigits)]
    rfl

/-- The recorded interpolations are written as such. -/
def Marked (p : Placeholders) : Prop :=
  ∀ text ∈ p.interpolations, text.head? = some '#'

/-- A brace that starts a placeholder with a recorded text gives way to that text, which starts
with no brace. -/
theorem putBack_brace_of_some (hp : p.Marked) (hleading : m.leading cs = some digits)
    (h : p.get? m digits = some text) :
    ∃ c rest, p.putBack m ('{' :: cs) = c :: rest ∧ c ≠ '{' ∧ isInner c = false := by
  obtain ⟨hdigits, rest, rfl⟩ := Mark.eq_append_of_leading hleading
  rw [← List.cons_append, ← Mark.holder_eq_cons, putBack_holder hdigits, h]
  cases m with
  | interpolation =>
    obtain ⟨text, rfl⟩ := List.head?_eq_some_iff.1 (hp _ (List.mem_of_getElem? h))
    exact ⟨'#', _, rfl, by decide, by decide⟩
  | double => exact ⟨'"', _, rfl, by decide, by decide⟩
  | single => exact ⟨'\'', _, rfl, by decide, by decide⟩

/-- Where no placeholder goes on, none goes on when texts are put back. -/
theorem isInner_head?_putBack (hp : p.Marked) (m : Mark) (hcs : ∀ d ∈ cs.head?, isInner d = false) :
    ∀ d ∈ (p.putBack m cs).head?, isInner d = false := by
  cases cs with
  | nil => rwa [putBack_nil]
  | cons c cs =>
    by_cases hc : c = '{'
    · subst hc
      by_cases hbare : ∀ digits ∈ m.leading cs, p.get? m digits = none
      · rw [putBack_brace hbare]
        exact hcs
      · -- The brace gives way to a text, whose first character decides.
        simp only [not_forall] at hbare
        obtain ⟨digits, hleading, hget⟩ := hbare
        obtain ⟨text, htext⟩ := Option.ne_none_iff_exists'.1 hget
        obtain ⟨c, rest, heq, -, hc⟩ := putBack_brace_of_some hp hleading htext
        rw [heq]
        rintro _ ⟨⟩
        exact hc
    · rw [putBack_of_outcome_none (Mark.outcome_of_ne hc m cs)]
      exact hcs

/-- Putting texts back changes nothing up to the first character that no placeholder holds. -/
theorem takeWhile_putBack (hp : p.Marked) (m : Mark) (cs : List Char) :
    (p.putBack m cs).takeWhile isInner = cs.takeWhile isInner := by
  have hbrace : '{' ∉ cs.takeWhile isInner :=
    fun hmem => ne_brace_of_isInner (List.mem_takeWhile_imp hmem) rfl
  have hstop := isInner_head?_putBack hp m (Mark.isInner_of_mem_head?_dropWhile cs)
  have hsplit : p.putBack m cs = cs.takeWhile isInner ++ p.putBack m (cs.dropWhile isInner) := by
    rw [← putBack_append_of_not_mem hbrace, List.takeWhile_append_dropWhile]
  rw [hsplit, takeWhile_append_of_stop (fun _ => List.mem_takeWhile_imp) hstop]

/-- Puts texts of several kinds back, those of the last kind first. -/
def fill (p : Placeholders) (ms : List Mark) (cs : List Char) : List Char :=
  ms.foldr p.putBack cs

theorem fill_cons (p : Placeholders) (m : Mark) (ms : List Mark) (cs : List Char) :
    p.fill (m :: ms) cs = p.putBack m (p.fill ms cs) :=
  rfl

theorem fill_nil (p : Placeholders) (ms : List Mark) : p.fill ms [] = [] := by
  induction ms with
  | nil => rfl
  | cons m ms ih => rw [fill_cons, ih, putBack_nil]

theorem fill_append_of_not_mem {xs : List Char} (h : '{' ∉ xs) (ms : List Mark) (ys : List Char) :
    p.fill ms (xs ++ ys) = xs ++ p.fill ms ys := by
  induction ms with
  | nil => rfl
  | cons m ms ih => rw [fill_cons, ih, putBack_append_of_not_mem h, fill_cons]

theorem fill_cons_of_ne {c : Char} (h : c ≠ '{') (ms : List Mark) (cs : List Char) :
    p.fill ms (c :: cs) = c :: p.fill ms cs :=
  fill_append_of_not_mem (fun hmem => h (List.mem_singleton.1 hmem).symm) ms cs

/-- A text without braces is filled already. -/
theorem fill_of_not_mem (h : '{' ∉ cs) (ms : List Mark) : p.fill ms cs = cs := by
  have happend := fill_append_of_not_mem (p := p) h ms []
  rwa [List.append_nil, fill_nil, List.append_nil] at happend

/-- Filling in changes nothing up to the first character that no placeholder holds. -/
theorem takeWhile_fill (hp : p.Marked) (ms : List Mark) (cs : List Char) :
    (p.fill ms cs).takeWhile isInner = cs.takeWhile isInner := by
  induction ms with
  | nil => rfl
  | cons m ms ih => rw [fill_cons, takeWhile_putBack hp, ih]

/-- Whether a brace in front of a text starts no placeholder with a recorded text. -/
def Bare (p : Placeholders) (ms : List Mark) (cs : List Char) : Prop :=
  ∀ m ∈ ms, ∀ digits ∈ m.leading cs, p.get? m digits = none

variable {ms : List Mark}

/-- A brace that starts no placeholder with a recorded text stays through all passes. Earlier
passes do not make a placeholder of it: they change nothing up to where a placeholder would
end. -/
theorem fill_brace_of_bare (hp : p.Marked) (h : p.Bare ms cs) :
    p.fill ms ('{' :: cs) = '{' :: p.fill ms cs := by
  induction ms with
  | nil => rfl
  | cons m ms ih =>
    have hm : ∀ digits ∈ m.leading (p.fill ms cs), p.get? m digits = none := by
      rw [Mark.leading_congr (takeWhile_fill hp ms cs)]
      exact h m List.mem_cons_self
    rw [fill_cons, ih fun m hm => h m (List.mem_cons_of_mem _ hm), putBack_brace hm, fill_cons]

/-- A brace that starts a placeholder with a recorded text gives way to something else. By
induction on the passes: either an earlier one has put a text there, or this one does. -/
theorem fill_brace_of_not_bare (hp : p.Marked) (h : ¬p.Bare ms cs) :
    ∃ c rest, p.fill ms ('{' :: cs) = c :: rest ∧ c ≠ '{' := by
  induction ms with
  | nil => exact absurd nofun h
  | cons m ms ih =>
    by_cases hms : p.Bare ms cs
    · -- The brace stays until the last pass, which puts a text in its place.
      have hm : ¬∀ digits ∈ m.leading cs, p.get? m digits = none :=
        fun hm => h (List.forall_mem_cons.2 ⟨hm, hms⟩)
      simp only [not_forall] at hm
      obtain ⟨digits, hleading, hget⟩ := hm
      obtain ⟨text, htext⟩ := Option.ne_none_iff_exists'.1 hget
      rw [Option.mem_def, ← Mark.leading_congr (takeWhile_fill hp ms cs)] at hleading
      rw [fill_cons, fill_brace_of_bare hp hms]
      obtain ⟨c, rest, heq, hc, -⟩ := putBack_brace_of_some hp hleading htext
      exact ⟨c, rest, heq, hc⟩
    · obtain ⟨c, rest, heq, hc⟩ := ih hms
      rw [fill_cons, heq, putBack_of_outcome_none (Mark.outcome_of_ne hc m rest)]
      exact ⟨c, _, rfl, hc⟩

/-- A placeholder with a recorded text gives way to that text in the pass for its kind, and is
left alone by the passes before. -/
theorem fill_holder (hp : p.Marked) (hm : m ∉ ms) (hdigits : IsNumber digits)
    (h : p.get? m digits = some text) (rest : List Char) :
    p.fill (m :: ms) (m.holder digits ++ rest) = m.requote text ++ p.fill (m :: ms) rest := by
  have hbare : p.Bare ms (m.tail digits ++ rest) := by
    intro m' hm' digits' hleading
    have hne : m' ≠ m := fun heq => hm (heq ▸ hm')
    rw [Mark.leading_tail_of_ne hne hdigits] at hleading
    cases hleading
  rw [fill_cons, Mark.holder_eq_cons, List.cons_append, fill_brace_of_bare hp hbare,
    fill_append_of_not_mem (Mark.not_mem_tail hdigits), ← List.cons_append, ← Mark.holder_eq_cons,
    putBack_holder hdigits, h, fill_cons]

/-- A placeholder by itself is one as a whole. -/
theorem whole?_holder (m : Mark) (hdigits : IsNumber digits) :
    whole? m (m.holder digits) = some digits := by
  have hread := Mark.outcome_holder m hdigits []
  rw [List.append_nil] at hread
  obtain ⟨⟨digits', rest, hlt⟩, hread', heq⟩ := Option.map_eq_some_iff.1 hread
  obtain ⟨rfl, rfl⟩ : digits' = digits ∧ rest = [] := Prod.mk.inj heq
  rw [whole?, hread']

theorem whole?_holder_of_ne {m' : Mark} (h : m' ≠ m) (hdigits : IsNumber digits) :
    whole? m' (m.holder digits) = none := by
  have hleading := Mark.leading_tail_of_ne h hdigits []
  rw [List.append_nil] at hleading
  have hread : m'.readHolder (m.holder digits) = none := by
    rw [Mark.holder_eq_cons]
    exact Option.map_eq_none_iff.1 (Option.map_eq_none_iff.1 hleading)
  rw [whole?, hread]

theorem restore_eq_fill (p : Placeholders) (cs : List Char) :
    p.restore cs = p.fill Mark.all (p.unquote (trim isSpace cs)) :=
  rfl

/-- What is one placeholder as a whole. -/
theorem eq_holder_of_whole? (h : whole? m cs = some digits) :
    IsNumber digits ∧ cs = m.holder digits := by
  match hread : m.readHolder cs with
  | none =>
    rw [whole?, hread] at h
    cases h
  | some (digits', ⟨d :: rest, hlt⟩) =>
    rw [whole?, hread] at h
    cases h
  | some (digits', ⟨[], hlt⟩) =>
    rw [whole?, hread] at h
    obtain rfl : digits' = digits := Option.some.inj h
    have houtcome : Reader.outcome m.readHolder cs = some (digits', []) := by
      rw [Reader.outcome, hread]
      rfl
    obtain ⟨heq, hdigits⟩ := Mark.eq_holder_of_outcome houtcome
    exact ⟨hdigits, by rw [heq, List.append_nil]⟩


/-- Only a placeholder for a quoted text is replaced as a whole. -/
theorem unquote_of_ne (h : ∀ digits, IsNumber digits →
    cs ≠ Mark.holder .single digits ∧ cs ≠ Mark.holder .double digits) : p.unquote cs = cs := by
  have hsingle : whole? .single cs = none := by
    refine Option.eq_none_iff_forall_ne_some.2 fun digits hsome => ?_
    obtain ⟨hdigits, heq⟩ := eq_holder_of_whole? hsome
    exact (h digits hdigits).1 heq
  have hdouble : whole? .double cs = none := by
    refine Option.eq_none_iff_forall_ne_some.2 fun digits hsome => ?_
    obtain ⟨hdigits, heq⟩ := eq_holder_of_whole? hsome
    exact (h digits hdigits).2 heq
  rw [unquote, hsingle, hdouble]

/-- A text without braces is only trimmed. -/
theorem restore_of_not_mem (h : '{' ∉ cs) : p.restore cs = trim isSpace cs := by
  have htrim : '{' ∉ trim isSpace cs := fun hmem => h (mem_of_mem_trim hmem)
  have hne : ∀ (m : Mark) digits, trim isSpace cs ≠ m.holder digits := by
    intro m digits heq
    rw [heq, Mark.holder_eq_cons] at htrim
    exact htrim List.mem_cons_self
  rw [restore_eq_fill, unquote_of_ne fun digits _ => ⟨hne _ _, hne _ _⟩, fill_of_not_mem htrim]

end Placeholders

end Attribute

end Offside
