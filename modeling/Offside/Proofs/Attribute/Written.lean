import Offside.Proofs.Attribute.Literal

/-!
# Attribute lists as they are written

An entry is a name, alone or with a value behind a separator, and there are many ways to write
it: either separator, any number of spaces around it, quotes of either kind or none, any run of
spaces and commas in front of the next entry. `Written` holds the spelling of an entry, and
`Written.entry` says what it stands for.

* `decodes_listText`: decoding a list takes it apart into its entries, and decodes each value
  by itself.
* `entriesOf_listText`: without braces, each entry is decoded to what it stands for.
* `parse_listText`: lists without braces decode to what they stand for, in all spellings, and
  end at the parenthesis behind them.
-/

set_option autoImplicit false

namespace Offside.Attribute

open Character

/-! ### Spellings -/

/-- The characters of a name or value that needs no quotes. -/
def isBare (c : Char) : Bool :=
  !(isBlank c || isDelimiter c || isSeparator c || isQuote c || c == '{' || c == '(' || c == ')')

/-- A text that needs no quotes. -/
def IsBareword (cs : List Char) : Prop :=
  cs ≠ [] ∧ ∀ c ∈ cs, isBare c = true
deriving Decidable

/-- A name that needs no quotes. -/
structure Name where
  chars : List Char
  isBareword : IsBareword chars
deriving DecidableEq

/-- How a value is set: the separator, the spaces on both sides of it, and the literal. -/
structure Setting where
  before : Nat
  separator : Char
  after : Nat
  literal : Literal
  isSeparator_separator : isSeparator separator = true
deriving DecidableEq

/-- The spelling of an entry, with what divides it from the entry in front. -/
structure Written where
  gap : List Char
  key : Name
  setting : Option Setting
  gap_ne_nil : gap ≠ []
  isDelimiter_of_mem : ∀ c ∈ gap, isDelimiter c = true
deriving DecidableEq

/-- The separator of a setting with its spaces. -/
def Setting.opening (s : Setting) : List Char :=
  List.replicate s.before ' ' ++ s.separator :: List.replicate s.after ' '

/-- Nothing but spaces and the separator stands between a name and its value. -/
theorem Setting.mem_opening {s : Setting} {c : Char} (h : c ∈ s.opening) :
    c = ' ' ∨ c = s.separator := by
  simp only [Setting.opening, List.mem_append, List.mem_cons, List.mem_replicate] at h
  rcases h with ⟨-, h⟩ | h | ⟨-, h⟩
  · exact .inl h
  · exact .inr h
  · exact .inl h

theorem Setting.separator_eq (s : Setting) : s.separator = '=' ∨ s.separator = ':' := by
  simpa [isSeparator] using s.isSeparator_separator

namespace Written

/-- What stands between the name and the value. -/
def opening (w : Written) : List Char :=
  match w.setting with
  | none => []
  | some s => s.opening

/-- The value as it is written, or an empty word where there is none. -/
def literal (w : Written) : Literal :=
  match w.setting with
  | none => .word []
  | some s => s.literal

/-- An entry without what divides it from the entry in front. -/
def text (w : Written) : List Char :=
  w.key.chars ++ w.opening ++ w.literal.text

end Written

/-- The entries of a list one after the other, with what divides them in between. -/
def listText : List Written → List Char
  | [] => []
  | w :: ws => w.text ++ ws.flatMap fun w => w.gap ++ w.text

/-! ### Texts that are not divided -/

section Solid

variable {c : Char} {cs : List Char}

/-- The characters at which a list is not divided, and that are not trimmed from it. -/
def isSolid (c : Char) : Bool :=
  !(isBlank c || isDelimiter c || isSeparator c)

/-- A text without blanks, delimiters and separators. -/
def Solid (cs : List Char) : Prop :=
  cs ≠ [] ∧ ∀ c ∈ cs, isSolid c = true

theorem isSolid_iff :
    isSolid c = true ↔ isBlank c = false ∧ isDelimiter c = false ∧ isSeparator c = false := by
  simp [isSolid, and_assoc]

theorem isSpace_of_isSolid (h : isSolid c = true) : isSpace c = false := by
  rw [isSpace, beq_eq_false_iff_ne]
  rintro rfl
  exact absurd h (by decide)

/-- A digit is none of the characters that divide a list: these all have code points of their
own, and no blank lies among the digits. -/
theorem isSolid_of_isDigit (h : c.isDigit = true) : isSolid c = true := by
  have hbounds : 48 ≤ c.toNat ∧ c.toNat ≤ 57 := by
    rw [Char.isDigit, Bool.and_eq_true, decide_eq_true_eq, decide_eq_true_eq] at h
    exact h
  have hne : ∀ d : Char, d.isDigit = false → c ≠ d := by
    rintro d hd rfl
    rw [h] at hd
    cases hd
  have hblank : isBlank c = false := by
    simp [isBlank]
    omega
  simp [isSolid, isDelimiter, isSeparator, hblank, hne ' ' (by decide), hne ',' (by decide),
    hne '=' (by decide), hne ':' (by decide)]

/-- A placeholder is not divided. -/
theorem solid_holder {m : Mark} {digits : List Char} (h : IsNumber digits) :
    Solid (m.holder digits) := by
  rw [Mark.holder_eq_cons]
  refine ⟨List.cons_ne_nil _ _, List.forall_mem_cons.2 ⟨by decide, fun c hc => ?_⟩⟩
  have hinner := Mark.isInner_of_mem_tail h c hc
  simp only [isInner, Bool.or_eq_true, beq_iff_eq] at hinner
  rcases hinner with ((hdigit | rfl) | rfl) | rfl
  · exact isSolid_of_isDigit hdigit
  all_goals decide

theorem IsBareword.solid (h : IsBareword cs) : Solid cs := by
  refine ⟨h.1, fun c hc => isSolid_iff.2 ?_⟩
  have hbare := h.2 c hc
  simp only [isBare, Bool.not_eq_true', Bool.or_eq_false_iff] at hbare
  exact ⟨hbare.1.1.1.1.1.1, hbare.1.1.1.1.1.2, hbare.1.1.1.1.2⟩

/-- A word without quotes has nothing in it that is swapped for a placeholder. -/
theorem IsBareword.plain (h : IsBareword cs) : Plain cs := by
  have hnot : ∀ c, isBare c = false → c ∉ cs := by
    intro c hc hmem
    rw [h.2 c hmem] at hc
    cases hc
  exact ⟨hnot _ (by decide), fun q => hnot _ (by cases q <;> decide)⟩

theorem Name.solid (k : Name) : Solid k.chars :=
  k.isBareword.solid

theorem Name.plain (k : Name) : Plain k.chars :=
  k.isBareword.plain

end Solid

/-! ### Taking a list apart -/

section Tighten

variable {c : Char} {cs xs ys : List Char}

/-- A character inside an entry stays, and spaces behind it are no longer those behind a
separator. -/
theorem tighten_of_isSolid (h : isSolid c = true) (b : Bool) (cs : List Char) :
    tighten b (c :: cs) = c :: tighten false cs := by
  rw [tighten, if_neg (by simp [isSpace_of_isSolid h]), (isSolid_iff.1 h).2.2]

theorem tighten_space (b : Bool) (cs : List Char) :
    tighten b (' ' :: cs) =
      if b || (cs.dropWhile isSpace).head?.any isSeparator then tighten b cs
      else ' ' :: tighten false cs := by
  rw [tighten, if_pos (show isSpace ' ' = true from rfl)]

/-- A text inside an entry stays as it is, whatever is in front of it. -/
theorem tighten_solid (h : Solid xs) (b : Bool) (ys : List Char) :
    tighten b (xs ++ ys) = xs ++ tighten false ys := by
  obtain ⟨hne, hsolid⟩ := h
  -- The flag is gone after the first character, so the induction starts behind it.
  have hrun : ∀ xs : List Char, (∀ c ∈ xs, isSolid c = true) →
      tighten false (xs ++ ys) = xs ++ tighten false ys := by
    intro xs hxs
    induction xs with
    | nil => rfl
    | cons c xs ih =>
      obtain ⟨hc, hxs⟩ := List.forall_mem_cons.1 hxs
      rw [List.cons_append, tighten_of_isSolid hc, ih hxs, List.cons_append]
  obtain ⟨c, xs, rfl⟩ := List.exists_cons_of_ne_nil hne
  obtain ⟨hc, hxs⟩ := List.forall_mem_cons.1 hsolid
  rw [List.cons_append, tighten_of_isSolid hc, hrun xs hxs, List.cons_append]

/-- What divides two entries stays, as no separator follows. -/
theorem tighten_gap {gap : List Char} (hgap : ∀ c ∈ gap, isDelimiter c = true) (hxs : Solid xs)
    (ys : List Char) : tighten false (gap ++ (xs ++ ys)) = gap ++ tighten false (xs ++ ys) := by
  obtain ⟨hne, hsolid⟩ := hxs
  obtain ⟨c, xs, rfl⟩ := List.exists_cons_of_ne_nil hne
  have hc : isSolid c = true := hsolid c List.mem_cons_self
  obtain ⟨cs, hcs⟩ : ∃ cs, cs = xs ++ ys := ⟨_, rfl⟩
  rw [List.cons_append, ← hcs]
  have hnext : ∀ gap : List Char, (∀ c ∈ gap, isDelimiter c = true) →
      ((gap ++ c :: cs).dropWhile isSpace).head?.any isSeparator = false := by
    intro gap hgap
    induction gap with
    | nil =>
      rw [List.nil_append, List.dropWhile_cons_of_neg (by simp [isSpace_of_isSolid hc])]
      exact (isSolid_iff.1 hc).2.2
    | cons d gap ih =>
      obtain ⟨hd, hlater⟩ := List.forall_mem_cons.1 hgap
      rw [isDelimiter, Bool.or_eq_true, beq_iff_eq, beq_iff_eq] at hd
      rcases hd with rfl | rfl
      · exact ih hlater
      · rfl
  induction gap with
  | nil => rfl
  | cons d gap ih =>
    obtain ⟨hd, hlater⟩ := List.forall_mem_cons.1 hgap
    have hrest := ih hlater
    rw [isDelimiter, Bool.or_eq_true, beq_iff_eq, beq_iff_eq] at hd
    rcases hd with rfl | rfl
    · rw [List.cons_append, tighten_space, hnext gap hlater, if_neg (by decide), hrest,
        List.cons_append]
    · rw [List.cons_append, tighten, if_neg (by decide), List.cons_append]
      exact congrArg (',' :: ·) hrest

/-- The spaces around a separator go. -/
theorem tighten_opening (s : Setting) (cs : List Char) :
    tighten false (s.opening ++ cs) = s.separator :: tighten true cs := by
  have hseparator : isSpace s.separator = false := by
    rw [isSpace, beq_eq_false_iff_ne]
    intro heq
    have h := s.isSeparator_separator
    rw [heq] at h
    exact absurd h (by decide)
  have hafter : ∀ n, tighten true (List.replicate n ' ' ++ cs) = tighten true cs := by
    intro n
    induction n with
    | zero => rfl
    | succ n ih =>
      rw [List.replicate_succ, List.cons_append, tighten_space, Bool.true_or, if_pos rfl, ih]
  have hbefore : ∀ n (ds : List Char),
      tighten false (List.replicate n ' ' ++ s.separator :: ds) =
        s.separator :: tighten true ds := by
    intro n ds
    induction n with
    | zero =>
      rw [List.replicate_zero, List.nil_append, tighten, if_neg (by simp [hseparator]),
        s.isSeparator_separator]
    | succ n ih =>
      have hnext : ((List.replicate n ' ' ++ s.separator :: ds).dropWhile isSpace).head? =
          some s.separator := by
        rw [List.dropWhile_append_of_pos (by simp [isSpace]),
          List.dropWhile_cons_of_neg (by simp [hseparator])]
        rfl
      rw [List.replicate_succ, List.cons_append, tighten_space, hnext, Option.any_some,
        s.isSeparator_separator, Bool.or_true, if_pos rfl, ih]
  rw [Setting.opening, List.append_assoc, List.cons_append, hbefore, hafter]

end Tighten

section Pieces

variable {d : Char} {xs ys : List Char}

/-- What is between the delimiters of a text. -/
def pieces (cs : List Char) : List (List Char) :=
  (cs.splitOnP isDelimiter).filter (· ≠ [])

/-- Delimiters in front of a text leave no piece behind. -/
theorem pieces_cons (hd : isDelimiter d = true) (cs : List Char) :
    pieces (d :: cs) = pieces cs := by
  rw [pieces, ← List.nil_append (d :: cs), List.splitOnP_append_cons _ _ hd, List.filter_append]
  rfl

theorem pieces_gap {gap : List Char} (hgap : ∀ c ∈ gap, isDelimiter c = true) (cs : List Char) :
    pieces (gap ++ cs) = pieces cs := by
  induction gap with
  | nil => rfl
  | cons d gap ih =>
    obtain ⟨hd, hlater⟩ := List.forall_mem_cons.1 hgap
    rw [List.cons_append, pieces_cons hd, ih hlater]

/-- A text without delimiters in front of one is a piece by itself. -/
theorem pieces_append (hne : xs ≠ []) (hxs : ∀ c ∈ xs, isDelimiter c = false)
    (hys : ∀ d ∈ ys.head?, isDelimiter d = true) : pieces (xs ++ ys) = xs :: pieces ys := by
  have hsingle : pieces xs = [xs] := by
    rw [pieces, List.splitOnP_eq_singleton hxs]
    simp [hne]
  cases ys with
  | nil => rw [List.append_nil, hsingle]; rfl
  | cons d ys =>
    have hd : isDelimiter d = true := hys d rfl
    rw [pieces, List.splitOnP_append_cons _ _ hd, List.filter_append]
    change pieces xs ++ pieces ys = _
    rw [hsingle, pieces_cons hd, List.singleton_append]

end Pieces

/-! ### The list with placeholders -/

namespace Written

/-- An entry once it is taken out of its list, with `value` in the place of its literal. -/
def piece (w : Written) (value : List Char) : List Char :=
  w.key.chars ++
    match w.setting with
    | none => []
    | some s => s.separator :: value

/-- Whether `value` can stand in the place of the literal. -/
def Fits (w : Written) (value : List Char) : Prop :=
  match w.setting with
  | none => value = []
  | some _ => Solid value

variable {w : Written} {value : List Char}

theorem tighten_opening (h : w.Fits value) (cs : List Char) :
    tighten false (w.key.chars ++ (w.opening ++ (value ++ cs))) =
      w.piece value ++ tighten false cs := by
  rw [tighten_solid w.key.solid]
  unfold Fits at h
  unfold opening piece
  match w.setting, h with
  | none, h =>
    subst h
    rw [List.append_nil]
    rfl
  | some s, h =>
    dsimp only
    rw [Attribute.tighten_opening, tighten_solid h, List.append_assoc, List.cons_append]

/-- An entry does not end in a blank. -/
theorem isBlank_of_mem_getLast? (h : w.Fits value) {front : List Char} :
    ∀ c ∈ (front ++ (w.key.chars ++ (w.opening ++ value))).getLast?, isBlank c = false := by
  have hlast : ∀ {cs : List Char}, Solid cs → ∀ front, ∀ c ∈ (front ++ cs).getLast?,
      isBlank c = false := by
    intro cs hcs front c hc
    rw [List.getLast?_append, List.getLast?_eq_some_getLast hcs.1] at hc
    obtain rfl := Option.some.inj hc
    exact (isSolid_iff.1 (hcs.2 _ (List.getLast_mem hcs.1))).1
  unfold Fits at h
  unfold opening
  match w.setting, h with
  | none, h =>
    subst h
    rw [List.append_nil, List.append_nil]
    exact hlast w.key.solid front
  | some s, h =>
    dsimp only
    rw [← List.append_assoc, ← List.append_assoc]
    exact hlast h _

/-- An entry that was taken out of its list cannot be divided further. -/
theorem isDelimiter_of_mem_piece (h : w.Fits value) :
    ∀ c ∈ w.piece value, isDelimiter c = false := by
  have hsolid : ∀ c, isSolid c = true → isDelimiter c = false :=
    fun c hc => (isSolid_iff.1 hc).2.1
  have hseparator : ∀ c, isSeparator c = true → isDelimiter c = false := by
    intro c hc
    rw [isSeparator, Bool.or_eq_true, beq_iff_eq, beq_iff_eq] at hc
    rcases hc with rfl | rfl <;> decide
  intro c hc
  unfold Fits at h
  unfold piece at hc
  match w.setting, h, hc with
  | none, _, hc =>
    rw [List.append_nil] at hc
    exact hsolid c (w.key.solid.2 c hc)
  | some s, h, hc =>
    rw [List.mem_append, List.mem_cons] at hc
    rcases hc with hc | rfl | hc
    · exact hsolid c (w.key.solid.2 c hc)
    · exact hseparator _ s.isSeparator_separator
    · exact hsolid c (h.2 c hc)

end Written

/-- An entry in its place in a list: with what is written in front of it. -/
abbrev Spaced : Type :=
  List Char × Written

namespace Spaced

/-- All of an entry but its value. -/
def frame (f : Spaced) : List Char :=
  f.1 ++ (f.2.key.chars ++ f.2.opening)

/-- The entries in their places: nothing is written in front of the first one. -/
def ofList : List Written → List Spaced
  | [] => []
  | w :: ws => ([], w) :: ws.map fun w => (w.gap, w)

/-- Laid out in their places, the entries make up the list. -/
theorem laid_ofList (ws : List Written) :
    laid frame ((ofList ws).map fun f => (f, f.2.literal)) = listText ws := by
  cases ws with
  | nil => rfl
  | cons w ws =>
    simp [ofList, laid, frame, listText, Written.text, List.flatMap_map]

theorem map_snd_ofList (ws : List Written) : (ofList ws).map Prod.snd = ws := by
  cases ws with
  | nil => rfl
  | cons w ws => simp [ofList, Function.comp_def]

end Spaced

section Skeleton

variable {hs : List (Spaced × List Char)}

/-- A list with texts in the place of the values. -/
def skeleton (hs : List (Spaced × List Char)) : List Char :=
  hs.flatMap fun h => h.1.frame ++ h.2

/-- The first entry of a list, with its parts one after the other. -/
theorem skeleton_cons (f : Spaced) (value : List Char) (hs : List (Spaced × List Char)) :
    skeleton ((f, value) :: hs) =
      f.1 ++ (f.2.key.chars ++ (f.2.opening ++ (value ++ skeleton hs))) := by
  simp [skeleton, Spaced.frame]

variable (hgap : ∀ h ∈ hs, ∀ c ∈ h.1.1, isDelimiter c = true) (hfits : ∀ h ∈ hs, h.1.2.Fits h.2)

include hgap hfits

/-- Of a whole list, only the spaces around separators go. By induction on the entries: what
divides an entry from the one in front stays, and its value is not divided. -/
theorem tighten_skeleton :
    tighten false (skeleton hs) = hs.flatMap fun h => h.1.1 ++ h.1.2.piece h.2 := by
  induction hs with
  | nil => rfl
  | cons h hs ih =>
    obtain ⟨⟨gap, w⟩, value⟩ := h
    obtain ⟨hgap, hlater⟩ := List.forall_mem_cons.1 hgap
    obtain ⟨hfits, hfits'⟩ := List.forall_mem_cons.1 hfits
    rw [skeleton_cons, tighten_gap hgap w.key.solid, Written.tighten_opening hfits,
      ih hlater hfits', List.flatMap_cons, List.append_assoc]

/-- A list without spaces around its separators is cut into its entries. Each entry but the
first has something in front that divides it from the others. -/
theorem pieces_skeleton (hdivided : ∀ h ∈ hs.tail, h.1.1 ≠ []) :
    pieces (hs.flatMap fun h => h.1.1 ++ h.1.2.piece h.2) = hs.map fun h => h.1.2.piece h.2 := by
  induction hs with
  | nil => rfl
  | cons h hs ih =>
    obtain ⟨hgap, hlater⟩ := List.forall_mem_cons.1 hgap
    obtain ⟨hfits, hfits'⟩ := List.forall_mem_cons.1 hfits
    -- What follows is nothing, or starts with what divides it from this entry.
    have hhead : ∀ d ∈ (hs.flatMap fun h => h.1.1 ++ h.1.2.piece h.2).head?,
        isDelimiter d = true := by
      cases hs with
      | nil => exact nofun
      | cons h' hs =>
        obtain ⟨d, gap, heq⟩ := List.exists_cons_of_ne_nil (hdivided h' List.mem_cons_self)
        rw [List.flatMap_cons, heq]
        rintro _ ⟨⟩
        exact hlater h' List.mem_cons_self d (by simp [heq])
    have hne : h.1.2.piece h.2 ≠ [] :=
      fun hnil => h.1.2.key.solid.1 (List.append_eq_nil_iff.1 hnil).1
    rw [List.flatMap_cons, List.append_assoc, pieces_gap hgap,
      pieces_append hne (Written.isDelimiter_of_mem_piece hfits) hhead,
      ih hlater hfits' fun h hh => hdivided h (List.mem_of_mem_tail hh), List.map_cons]

omit hgap in
/-- A list does not end in a blank, so that trimming takes nothing from it. -/
theorem isBlank_getLast?_skeleton : ∀ c ∈ (skeleton hs).getLast?, isBlank c = false := by
  induction hs with
  | nil => exact nofun
  | cons h hs ih =>
    obtain ⟨⟨gap, w⟩, value⟩ := h
    obtain ⟨hfits, hfits'⟩ := List.forall_mem_cons.1 hfits
    have hsplit : skeleton (((gap, w), value) :: hs) =
        gap ++ (w.key.chars ++ (w.opening ++ value)) ++ skeleton hs := by
      simp [skeleton_cons]
    intro c hc
    rw [hsplit, List.getLast?_append, Option.mem_def, Option.or_eq_some_iff] at hc
    rcases hc with hc | ⟨-, hc⟩
    · exact ih hfits' c hc
    · exact Written.isBlank_of_mem_getLast? hfits c hc

/-- A list is taken apart into its entries. -/
theorem splitOnP_skeleton (hfirst : ∀ h ∈ hs.head?, h.1.1 = [])
    (hdivided : ∀ h ∈ hs.tail, h.1.1 ≠ []) :
    ((tighten false (trim isBlank (skeleton hs))).splitOnP isDelimiter).filter (· ≠ []) =
      hs.map fun h => h.1.2.piece h.2 := by
  have hhead : ∀ c ∈ (skeleton hs).head?, isBlank c = false := by
    cases hs with
    | nil => exact nofun
    | cons h hs =>
      obtain ⟨⟨gap, w⟩, value⟩ := h
      obtain rfl : gap = [] := hfirst _ rfl
      obtain ⟨c, cs, hkey⟩ := List.exists_cons_of_ne_nil w.key.solid.1
      rw [skeleton_cons, hkey]
      rintro _ ⟨⟩
      exact (isSolid_iff.1 (w.key.solid.2 c (by simp [hkey]))).1
  rw [trim_eq_self hhead (isBlank_getLast?_skeleton hfits), tighten_skeleton hgap hfits]
  exact pieces_skeleton hgap hfits hdivided

end Skeleton

/-! ### Decoding an entry -/

section Decoding

variable {p : Placeholders} {cs : List Char}

/-- There is nothing to strip from a text without quotes. -/
theorem stripQuotes_of_not_mem (h : ∀ q : Quote, q.char ∉ cs) : stripQuotes cs = cs := by
  have hmem : ∀ c ∈ cs, isQuote c = false := by
    intro c hc
    rw [isQuote, Bool.or_eq_false_iff, beq_eq_false_iff_ne, beq_eq_false_iff_ne]
    constructor
    · rintro rfl
      exact h .double hc
    · rintro rfl
      exact h .single hc
  match cs with
  | [] => rfl
  | c :: cs =>
    match hreverse : (c :: cs).reverse with
    | [] => simp at hreverse
    | d :: ds =>
      have hd : d ∈ c :: cs := by
        rw [← List.mem_reverse, hreverse]
        exact .head _
      simp only [stripQuotes, hmem c (.head _), hmem d hd, hreverse, Bool.false_eq_true, if_false]
      rw [← hreverse, List.reverse_reverse]

theorem trim_of_solid (h : Solid cs) : trim isSpace cs = cs :=
  trim_eq_self (fun c hc => isSpace_of_isSolid (h.2 c (List.mem_of_head? hc)))
    (fun c hc => isSpace_of_isSolid (h.2 c (List.mem_of_getLast? hc)))

/-- An entry is divided at the first equals sign, or else at the first colon, unless there is a
quote in front of it that is not its first character. -/
theorem divide?_eq (entry : List Char) :
    divide? entry =
      ((Reader.outcome (upTo '=') entry).or (Reader.outcome (upTo ':') entry)).bind
        fun out => if (out.1.drop 1).any isQuote then none else some out := by
  unfold divide? Reader.outcome
  cases upTo '=' entry with
  | some out => rfl
  | none => cases upTo ':' entry <;> rfl

namespace Written

variable {w : Written} {value : List Char}

/-- An entry is divided at its separator. -/
theorem divide?_piece (h : w.Fits value) :
    divide? (w.piece value) = w.setting.map fun _ => (w.key.chars, value) := by
  have hkey : ∀ c, isSeparator c = true → c ∉ w.key.chars := by
    intro c hc hmem
    rw [(isSolid_iff.1 (w.key.solid.2 c hmem)).2.2] at hc
    cases hc
  have hquote : (w.key.chars.drop 1).any isQuote = false := by
    rw [List.any_eq_false]
    intro c hc hq
    rw [isQuote, Bool.or_eq_true, beq_iff_eq, beq_iff_eq] at hq
    rcases hq with rfl | rfl
    · exact w.key.plain.2 .double (List.mem_of_mem_drop hc)
    · exact w.key.plain.2 .single (List.mem_of_mem_drop hc)
  rw [divide?_eq]
  unfold Fits at h
  unfold piece
  match w.setting, h with
  | none, _ =>
    rw [List.append_nil, outcome_upTo_of_not_mem (hkey '=' rfl),
      outcome_upTo_of_not_mem (hkey ':' rfl)]
    rfl
  | some s, h =>
    dsimp only
    rcases s.separator_eq with heq | heq
    · rw [heq, outcome_upTo (hkey '=' rfl), Option.some_or, Option.bind_some, hquote]
      rfl
    · rw [heq]
      -- The value has no separator in it that would be found first.
      have hvalue : '=' ∉ w.key.chars ++ ':' :: value := by
        rw [List.mem_append, List.mem_cons, not_or, not_or]
        refine ⟨hkey '=' rfl, by decide, fun hmem => ?_⟩
        exact absurd (h.2 '=' hmem) (by decide)
      rw [outcome_upTo_of_not_mem hvalue, outcome_upTo (hkey ':' rfl), Option.none_or,
        Option.bind_some, hquote]
      rfl

/-- An entry is decoded to its name and what its value is decoded to, or to a flag if it has
none. -/
theorem ofRaw_piece (p : Placeholders) (h : w.Fits value) :
    Entry.ofRaw p (w.piece value) =
      (String.ofList w.key.chars,
        match w.setting with
        | none => .flag true
        | some _ => Value.ofRaw p value) := by
  have hrestore : p.restore w.key.chars = w.key.chars := by
    rw [Placeholders.restore_of_not_mem w.key.plain.1, trim_of_solid w.key.solid]
  have hkey : stripQuotes (trim isSpace w.key.chars) = w.key.chars := by
    rw [trim_of_solid w.key.solid, stripQuotes_of_not_mem w.key.plain.2]
  rw [Entry.ofRaw, divide?_piece h]
  unfold Fits at h
  unfold piece
  match w.setting, h with
  | none, _ => simp [hrestore, hkey]
  | some s, _ => simp [hrestore, hkey]

end Written

/-- A list is decoded entry by entry, once its literals are out of the way. -/
theorem entriesOf_of_skeleton {hs : List (Spaced × List Char)}
    (htext : (Placeholders.substitute cs).2 = skeleton hs)
    (hgap : ∀ h ∈ hs, ∀ c ∈ h.1.1, isDelimiter c = true) (hfits : ∀ h ∈ hs, h.1.2.Fits h.2)
    (hfirst : ∀ h ∈ hs.head?, h.1.1 = []) (hdivided : ∀ h ∈ hs.tail, h.1.1 ≠ []) :
    entriesOf (String.ofList cs) =
      hs.map fun h => Entry.ofRaw (Placeholders.substitute cs).1 (h.1.2.piece h.2) := by
  generalize hp : (Placeholders.substitute cs).1 = p
  -- No entry is dropped, as names are not empty.
  have hkeys : ∀ e ∈ hs.map fun h => Entry.ofRaw p (h.1.2.piece h.2), e.1 ≠ "" := by
    refine List.forall_mem_map.2 fun h hh => ?_
    rw [Written.ofRaw_piece p (hfits h hh)]
    intro hempty
    exact h.1.2.key.solid.1 (String.ofList_eq_empty_iff.1 hempty)
  rw [entriesOf, String.toList_ofList]
  dsimp only
  rw [htext, hp]
  change ((((tighten false (trim isBlank (skeleton hs))).splitOnP isDelimiter).filter
    (· ≠ [])).map (Entry.ofRaw p)).filter (·.1 ≠ "") = _
  rw [splitOnP_skeleton hgap hfits hfirst hdivided, List.map_map]
  exact List.filter_eq_self.2 fun e he => decide_eq_true (hkeys e he)

end Decoding

/-! ### Decoding a list -/

namespace Written

/-- A word needs no quotes, and a text between quotes has none of their kind in it and finishes
its interpolations. -/
def Sound (w : Written) : Prop :=
  ∀ s ∈ w.setting,
    match s.literal with
    | .word cs => IsBareword cs
    | .quoted q body => (Literal.quoted q body).Sound

/-- What an entry is decoded to, where `p` holds the texts taken out of the list. -/
def Decodes (p : Placeholders) (w : Written) (e : Entry) : Prop :=
  e.1 = String.ofList w.key.chars ∧
    match w.setting with
    | none => e.2 = .flag true
    | some s => ∃ value, s.literal.Hidden p value ∧ e.2 = Value.ofRaw p value

variable {w : Written} {value : List Char} {p : Placeholders}

/-- In front of the placeholder pass, a word without quotes is as good as a sound literal. -/
theorem Sound.sound_literal (h : w.Sound) : w.literal.Sound := by
  unfold literal
  match hsetting : w.setting with
  | none => exact ⟨List.not_mem_nil, fun _ => List.not_mem_nil⟩
  | some s =>
    have hs := h s hsetting
    dsimp only
    match hliteral : s.literal with
    | .word cs =>
      rw [hliteral] at hs
      exact hs.plain
    | .quoted q body =>
      rw [hliteral] at hs
      exact hs

/-- What stands for a value in the list with placeholders is not divided: it is the word
itself, or a placeholder. -/
theorem Sound.fits (h : w.Sound) (hhidden : w.literal.Hidden p value) : w.Fits value := by
  unfold literal at hhidden
  unfold Fits
  match hsetting : w.setting with
  | none =>
    rw [hsetting] at hhidden
    cases hhidden
    rfl
  | some s =>
    rw [hsetting] at hhidden
    have hs := h s hsetting
    dsimp only at hhidden ⊢
    match hliteral : s.literal with
    | .word cs =>
      rw [hliteral] at hs hhidden
      cases hhidden
      exact hs.solid
    | .quoted q body =>
      rw [hliteral] at hhidden
      cases hhidden
      exact solid_holder (isNumber_toDigits _)

/-- An entry with its value hidden is decoded to its name and to what the hidden value stands
for. -/
theorem Sound.decodes (h : w.Sound) (hhidden : w.literal.Hidden p value) :
    w.Decodes p (Entry.ofRaw p (w.piece value)) := by
  rw [ofRaw_piece p (h.fits hhidden)]
  refine ⟨rfl, ?_⟩
  unfold literal at hhidden
  match w.setting, hhidden with
  | none, _ => rfl
  | some s, hhidden => exact ⟨value, hhidden, rfl⟩

theorem plain_opening (w : Written) : Plain w.opening := by
  unfold opening
  match w.setting with
  | none => exact ⟨List.not_mem_nil, fun _ => List.not_mem_nil⟩
  | some s =>
    have hmem : ∀ c ∈ s.opening, c = ' ' ∨ c = '=' ∨ c = ':' := by
      intro c hc
      rcases Setting.mem_opening hc with rfl | rfl
      · exact .inl rfl
      · exact .inr s.separator_eq
    refine ⟨fun hc => absurd (hmem _ hc) (by decide), fun q hc => absurd (hmem _ hc) ?_⟩
    cases q <;> decide

end Written

namespace Spaced

variable {ws : List Written} {f : Spaced}

/-- Each place holds an entry of the list, with delimiters in front. -/
theorem mem_of_mem_ofList (h : f ∈ ofList ws) : f.2 ∈ ws ∧ ∀ c ∈ f.1, isDelimiter c = true := by
  cases ws with
  | nil => cases h
  | cons w ws =>
    rcases List.mem_cons.1 h with rfl | h
    · exact ⟨List.mem_cons_self, nofun⟩
    · obtain ⟨w', hw', rfl⟩ := List.mem_map.1 h
      exact ⟨List.mem_cons_of_mem _ hw', w'.isDelimiter_of_mem⟩

theorem gap_ne_nil_of_mem_tail (h : f ∈ (ofList ws).tail) : f.1 ≠ [] := by
  cases ws with
  | nil => cases h
  | cons w ws =>
    obtain ⟨w', -, rfl⟩ := List.mem_map.1 h
    exact w'.gap_ne_nil

theorem gap_eq_nil_of_mem_head? (h : f ∈ (ofList ws).head?) : f.1 = [] := by
  cases ws with
  | nil => cases h
  | cons w ws =>
    obtain rfl := Option.some.inj h
    rfl

/-- All of an entry but its value goes through the placeholder passes unchanged. -/
theorem plain_frame (h : f ∈ ofList ws) : Plain f.frame := by
  have hgap := (mem_of_mem_ofList h).2
  constructor
  · rw [frame, List.mem_append, List.mem_append, not_or, not_or]
    exact ⟨fun hc => absurd (hgap _ hc) (by decide), f.2.key.plain.1, f.2.plain_opening.1⟩
  · intro q
    rw [frame, List.mem_append, List.mem_append, not_or, not_or]
    refine ⟨fun hc => absurd (hgap _ hc) ?_, f.2.key.plain.2 q, f.2.plain_opening.2 q⟩
    cases q <;> decide

end Spaced

/-- Decoding a list decodes each of its entries by itself. -/
theorem decodes_listText (ws : List Written) (hsound : ∀ w ∈ ws, w.Sound)
    (hopen : ws.Pairwise fun w w' => w.literal.LeavesOpen → ¬w'.literal.ShowsQuote) :
    List.Forall₂ (Written.Decodes (Placeholders.substitute (listText ws)).1) ws
      (entriesOf (String.ofList (listText ws))) := by
  have hplace : ∀ f ∈ Spaced.ofList ws, f.2.Sound :=
    fun f hf => hsound f.2 (Spaced.mem_of_mem_ofList hf).1
  rw [← Spaced.map_snd_ofList ws, List.pairwise_map] at hopen
  -- The list with placeholders, and what they stand for.
  have hframe : ∀ f ∈ (Spaced.ofList ws).map fun f => (f, f.2.literal), Plain (Spaced.frame f.1) :=
    List.forall_mem_map.2 fun f hf => Spaced.plain_frame hf
  obtain ⟨hs, htext, hhidden⟩ := Placeholders.exists_hidden hframe
    (List.forall_mem_map.2 fun f hf => (hplace f hf).sound_literal) (List.pairwise_map.2 hopen)
  rw [Spaced.laid_ofList] at htext hhidden
  rw [List.forall₂_map_left_iff] at hhidden
  obtain ⟨p, hp⟩ : ∃ p, p = (Placeholders.substitute (listText ws)).1 := ⟨_, rfl⟩
  rw [← hp] at hhidden ⊢
  have hpass := (List.forall₂_and_left (Spaced.ofList ws) hs).2 ⟨hplace, hhidden⟩
  -- It is taken apart into its entries.
  have hplaces : hs.map Prod.fst = Spaced.ofList ws := by
    have heq : List.Forall₂ Eq (Spaced.ofList ws) (hs.map Prod.fst) :=
      List.forall₂_map_right_iff.2 (hhidden.imp fun f h hfh => hfh.1.symm)
    exact (List.forall₂_eq_eq_eq ▸ heq).symm
  have hgap : ∀ h ∈ hs, ∀ c ∈ h.1.1, isDelimiter c = true := by
    intro h hh
    exact (Spaced.mem_of_mem_ofList (hplaces ▸ List.mem_map_of_mem hh)).2
  have hfits : ∀ h ∈ hs, h.1.2.Fits h.2 := by
    refine forall_mem_of_forall₂ hpass ?_
    rintro f h ⟨hf, rfl, hhidden⟩
    exact hf.fits hhidden
  have hentries := entriesOf_of_skeleton htext hgap hfits
    (fun h hh => Spaced.gap_eq_nil_of_mem_head?
      (hplaces ▸ List.head?_map ▸ Option.mem_map_of_mem _ hh))
    (fun h hh => Spaced.gap_ne_nil_of_mem_tail
      (hplaces ▸ List.map_tail ▸ List.mem_map_of_mem hh))
  have hdecodes : List.Forall₂ (fun f h =>
      Written.Decodes p (Prod.snd f) (Entry.ofRaw p (h.1.2.piece h.2))) (Spaced.ofList ws) hs := by
    refine hpass.imp ?_
    rintro f h ⟨hf, rfl, hhidden⟩
    exact hf.decodes hhidden
  rw [hentries, ← hp, List.forall₂_map_right_iff, ← Spaced.map_snd_ofList ws,
    List.forall₂_map_left_iff]
  exact hdecodes

/-! ### Values -/

section Values

variable {p : Placeholders}

/-- The value that a literal stands for. -/
def Literal.value : Literal → Value
  | .word cs =>
    if cs = "true".toList then .flag true
    else if cs = "null".toList ∨ cs = "false".toList then .flag false
    else .text (String.ofList cs)
  | .quoted _ body => if body = [] then .flag false else .text (String.ofList body)

/-- The name and value that an entry stands for. -/
def Written.entry (w : Written) : Entry :=
  (String.ofList w.key.chars,
    match w.setting with
    | none => .flag true
    | some s => s.literal.value)

/-- A word without quotes is decoded to its value: it is trimmed already, and nothing is put
back. -/
theorem ofRaw_bareword (p : Placeholders) {cs : List Char} (h : IsBareword cs) :
    Value.ofRaw p cs = (Literal.word cs).value := by
  have hrestore : p.restore (stripQuotes cs) = cs := by
    rw [stripQuotes_of_not_mem h.plain.2, Placeholders.restore_of_not_mem h.plain.1,
      trim_of_solid h.solid]
  rw [Value.ofRaw, trim_of_solid h.solid]
  dsimp only
  rw [hrestore, if_neg h.1, Literal.value]
  simp only [h.1, false_or]

/-- A quoted text is looked at only once it has been put back. -/
theorem ofRaw_holder (p : Placeholders) {q : Quote} {digits : List Char} (h : IsNumber digits) :
    Value.ofRaw p (q.mark.holder digits) =
      (Literal.quoted q (p.restore (q.mark.holder digits))).value := by
  have hplain : ∀ q' : Quote, q'.char ∉ q.mark.holder digits :=
    fun q' => Mark.not_mem_holder h q'.isInner_char q'.char_ne_brace
  have hne : ∀ cs : List Char, cs.head? ≠ some '{' → q.mark.holder digits ≠ cs := by
    rintro cs hcs rfl
    rw [Mark.holder_eq_cons] at hcs
    exact hcs rfl
  rw [Value.ofRaw, trim_of_solid (solid_holder h)]
  dsimp only
  rw [stripQuotes_of_not_mem hplain, if_neg (hne _ (by decide)), if_neg, Literal.value]
  rw [not_or, not_or]
  exact ⟨hne _ (by decide), hne _ (by decide), hne _ (by decide)⟩

end Values

/-! ### The closing parenthesis -/

section Closing

variable {c quote : Char} {xs ys : List Char}

/-- Outside of quotes, a character that is no parenthesis is passed, and a quote opens a quoted
text. -/
theorem outcome_readClosing_none (hbreak : c ≠ '\n') (hopen : c ≠ '(') (hclose : c ≠ ')')
    (depth : Nat) (cs : List Char) :
    Reader.outcome (readClosing none depth) (c :: cs) =
      (Reader.outcome (readClosing (if isQuote c then some c else none) depth) cs).map
        fun out => (c :: out.1, out.2) := by
  unfold Reader.outcome
  rw [readClosing, if_neg hbreak, if_neg (by simp [hclose]), if_neg (by simp [hclose])]
  · dsimp only
    cases readClosing (if isQuote c then some c else none) depth cs <;> rfl
  · exact fun _ => hopen
  · exact fun _ => hclose

/-- Inside of quotes, every character is passed up to the quote that closes them. -/
theorem outcome_readClosing_some (hbreak : c ≠ '\n') (depth : Nat) (cs : List Char) :
    Reader.outcome (readClosing (some quote) depth) (c :: cs) =
      (Reader.outcome (readClosing (if c = quote then none else some quote) depth) cs).map
        fun out => (c :: out.1, out.2) := by
  unfold Reader.outcome
  rw [readClosing, if_neg hbreak, if_neg (by simp), if_neg (by simp)]
  dsimp only
  cases readClosing (if c = quote then none else some quote) depth cs <;> rfl

/-- A text inside a list that neither ends it nor leaves a quote open. -/
def Passes (xs : List Char) : Prop :=
  ∀ cs, Reader.outcome (readClosing none 1) (xs ++ cs) =
    (Reader.outcome (readClosing none 1) cs).map fun out => (xs ++ out.1, out.2)

theorem passes_nil : Passes [] := by
  intro cs
  cases h : Reader.outcome (readClosing none 1) cs <;> simp [h]

/-- Texts that pass can be put one behind the other. -/
theorem Passes.append (hxs : Passes xs) (hys : Passes ys) : Passes (xs ++ ys) := by
  intro cs
  rw [List.append_assoc, hxs, hys, Option.map_map]
  simp [Function.comp_def, List.append_assoc]

theorem passes_flatMap {α : Type} {as : List α} {f : α → List Char} (h : ∀ a ∈ as, Passes (f a)) :
    Passes (as.flatMap f) := by
  induction as with
  | nil => exact passes_nil
  | cons a as ih =>
    obtain ⟨ha, has⟩ := List.forall_mem_cons.1 h
    exact ha.append (ih has)

/-- Characters that mean nothing to the search for the closing parenthesis. -/
def isNeutral (c : Char) : Bool :=
  !(c == '\n' || isQuote c || c == '(' || c == ')')

theorem isNeutral_of_isBare (h : isBare c = true) : isNeutral c = true := by
  have hbreak : c ≠ '\n' := by
    rintro rfl
    exact absurd h (by decide)
  simp only [isBare, Bool.not_eq_true', Bool.or_eq_false_iff] at h
  simp [isNeutral, hbreak, h]

/-- A text passes if none of its characters means anything to the search. -/
theorem passes_of_isNeutral (h : ∀ c ∈ xs, isNeutral c = true) : Passes xs := by
  induction xs with
  | nil => exact passes_nil
  | cons c xs ih =>
    obtain ⟨hc, hxs⟩ := List.forall_mem_cons.1 h
    simp only [isNeutral, Bool.not_eq_true', Bool.or_eq_false_iff, beq_eq_false_iff_ne] at hc
    obtain ⟨⟨⟨hbreak, hquote⟩, hopen⟩, hclose⟩ := hc
    intro cs
    rw [List.cons_append, outcome_readClosing_none hbreak hopen hclose, hquote,
      if_neg (by decide), ih hxs, Option.map_map]
    rfl

/-- A quoted text on one line passes, and the parentheses in it do not count. -/
theorem passes_quoted {q : Quote} {body : List Char} (hquote : q.char ∉ body)
    (hbreak : '\n' ∉ body) : Passes (Literal.quoted q body).text := by
  -- Inside the quotes every character is passed, parentheses too.
  have hbody : ∀ body : List Char, q.char ∉ body → '\n' ∉ body → ∀ cs,
      Reader.outcome (readClosing (some q.char) 1) (body ++ q.char :: cs) =
        (Reader.outcome (readClosing none 1) cs).map
          fun out => (body ++ q.char :: out.1, out.2) := by
    intro body hquote hbreak cs
    induction body with
    | nil =>
      rw [List.nil_append, outcome_readClosing_some (by cases q <;> decide), if_pos rfl]
      rfl
    | cons c body ih =>
      rw [List.mem_cons, not_or] at hquote hbreak
      rw [List.cons_append, outcome_readClosing_some (Ne.symm hbreak.1),
        if_neg (Ne.symm hquote.1), ih hquote.2 hbreak.2, Option.map_map]
      rfl
  have hopens : isQuote q.char = true := by cases q <;> rfl
  intro cs
  rw [Literal.text, List.cons_append, List.append_assoc, List.singleton_append,
    outcome_readClosing_none (by cases q <;> decide) (by cases q <;> decide)
      (by cases q <;> decide), if_pos hopens, hbody body hquote hbreak, Option.map_map]
  simp [Function.comp_def]

theorem closingOffset?_eq (text : String) :
    closingOffset? text =
      (Reader.outcome (readClosing none 0) text.toList).map
        fun out => (String.ofList out.1).utf8ByteSize := by
  rw [closingOffset?, Reader.outcome, Option.map_map]
  rfl

theorem outcome_readClosing_close (rest : List Char) :
    Reader.outcome (readClosing none 1) (')' :: rest) = some ([], rest) := by
  unfold Reader.outcome
  rw [readClosing, if_neg (by decide), if_pos (by decide)]
  rfl

theorem outcome_readClosing_open (depth : Nat) (cs : List Char) :
    Reader.outcome (readClosing none depth) ('(' :: cs) =
      (Reader.outcome (readClosing none (depth + 1)) cs).map fun out => ('(' :: out.1, out.2) := by
  unfold Reader.outcome
  rw [readClosing, if_neg (by decide), if_neg (by simp), if_neg (by simp)]
  rw [show (if isQuote '(' = true then some '(' else none) = none from rfl]
  dsimp only
  cases readClosing none (depth + 1) cs <;> rfl

/-- The list that starts with a parenthesis and goes on with `xs` is closed by the next one. -/
theorem Passes.closingOffset? (hxs : Passes xs) (rest : List Char) :
    closingOffset? (String.ofList ('(' :: (xs ++ ')' :: rest))) =
      some (String.ofList ('(' :: xs)).utf8ByteSize := by
  rw [closingOffset?_eq, String.toList_ofList, outcome_readClosing_open, hxs,
    outcome_readClosing_close]
  simp

end Closing

/-! ### All spellings -/

/-- Literals with nothing in them that needs care: words, double-quoted texts without double
quotes, single-quoted texts without quotes, on one line and without braces. -/
def Literal.Simple : Literal → Prop
  | .word cs => IsBareword cs
  | .quoted q body => q.char ∉ body ∧ '"' ∉ body ∧ '{' ∉ body ∧ '\n' ∉ body

instance : DecidablePred Literal.Simple
  | .word cs => inferInstanceAs (Decidable (IsBareword cs))
  | .quoted q body =>
    inferInstanceAs (Decidable (q.char ∉ body ∧ '"' ∉ body ∧ '{' ∉ body ∧ '\n' ∉ body))

/-- An entry whose value, if it has one, is simple. -/
def Written.Simple (w : Written) : Prop :=
  ∀ s ∈ w.setting, s.literal.Simple

instance (w : Written) : Decidable w.Simple :=
  inferInstanceAs (Decidable (∀ s ∈ w.setting, s.literal.Simple))

namespace Literal

variable {l : Literal}

theorem Simple.not_leavesOpen (h : l.Simple) : ¬l.LeavesOpen := by
  match l, h with
  | .word _, _ => exact id
  | .quoted .double _, _ => exact id
  | .quoted .single body, h =>
    intro hodd
    have hquote : '"' ∉ blanked (cut (Mark.readText .interpolation) body) := by
      rw [mem_blanked (by decide)]
      exact fun hmem => h.2.1 (Mark.mem_of_char_mem_cut_text hmem)
    rw [LeavesOpen, List.count_eq_zero_of_not_mem hquote] at hodd
    cases hodd

theorem Simple.passes (h : l.Simple) : Passes l.text := by
  cases l with
  | word cs => exact passes_of_isNeutral fun c hc => isNeutral_of_isBare (h.2 c hc)
  | quoted q body => exact passes_quoted h.1 h.2.2.2

/-- A simple literal is decoded to the value it stands for. -/
theorem Simple.ofRaw {p : Placeholders} (hp : p.Marked) (h : l.Simple) {value : List Char}
    (hhidden : l.Hidden p value) : Value.ofRaw p value = l.value := by
  cases l with
  | word cs =>
    cases hhidden
    exact ofRaw_bareword p h
  | quoted q body =>
    have hrestore : p.restore value = body :=
      (hhidden.agree_restore hp).1 (Placeholders.quiet_of_not_mem h.2.2.1)
    cases hhidden with
    | quoted hget hinterpolations hdoubles =>
      rw [ofRaw_holder p (isNumber_toDigits _), hrestore]

end Literal

namespace Written

variable {w : Written}

theorem Simple.sound (h : w.Simple) : w.Sound := by
  intro s hs
  have hliteral := h s hs
  match hl : s.literal with
  | .word cs =>
    rw [hl] at hliteral
    exact hliteral
  | .quoted q body =>
    rw [hl] at hliteral
    exact ⟨hliteral.1, closed_of_not_mem hliteral.2.2.1⟩

theorem Simple.not_leavesOpen (h : w.Simple) : ¬w.literal.LeavesOpen := by
  unfold literal
  match hs : w.setting with
  | none => exact id
  | some s => exact (h s hs).not_leavesOpen

theorem Simple.passes (h : w.Simple) : Passes w.text := by
  have hkey : Passes w.key.chars :=
    passes_of_isNeutral fun c hc => isNeutral_of_isBare (w.key.isBareword.2 c hc)
  unfold text opening literal
  match hs : w.setting with
  | none =>
    exact (hkey.append passes_nil).append passes_nil
  | some s =>
    have hopening : Passes s.opening := by
      refine passes_of_isNeutral fun c hc => ?_
      rcases Setting.mem_opening hc with rfl | rfl
      · rfl
      · rcases s.separator_eq with heq | heq <;> rw [heq] <;> rfl
    exact (hkey.append hopening).append (h s hs).passes

theorem passes_gap (w : Written) : Passes w.gap := by
  refine passes_of_isNeutral fun c hc => ?_
  have hdelimiter := w.isDelimiter_of_mem c hc
  rw [isDelimiter, Bool.or_eq_true, beq_iff_eq, beq_iff_eq] at hdelimiter
  rcases hdelimiter with rfl | rfl <;> rfl

/-- What a simple entry is decoded to is what it stands for. -/
theorem Simple.eq_entry {p : Placeholders} (hp : p.Marked) (h : w.Simple) {e : Entry}
    (hdecodes : w.Decodes p e) : e = w.entry := by
  obtain ⟨hkey, hvalue⟩ := hdecodes
  refine Prod.ext hkey ?_
  unfold entry
  match hs : w.setting with
  | none =>
    rw [hs] at hvalue
    exact hvalue
  | some s =>
    rw [hs] at hvalue
    obtain ⟨value, hhidden, heq⟩ := hvalue
    exact heq.trans ((h s hs).ofRaw hp hhidden)

end Written

/-- Each entry of a list is decoded to what it stands for. -/
theorem entriesOf_listText {ws : List Written} (h : ∀ w ∈ ws, w.Simple) :
    entriesOf (String.ofList (listText ws)) = ws.map Written.entry := by
  have hdecodes := decodes_listText ws (fun w hw => (h w hw).sound)
    (List.pairwise_of_forall_mem_list fun w hw w' _ hopen => absurd hopen (h w hw).not_leavesOpen)
  have hentries : List.Forall₂ Eq (entriesOf (String.ofList (listText ws)))
      (ws.map Written.entry) := by
    refine List.forall₂_map_right_iff.2
      (((List.forall₂_and_left _ _).2 ⟨h, hdecodes⟩).flip.imp ?_)
    rintro e w ⟨hw, he⟩
    exact hw.eq_entry (Placeholders.marked_substitute _) he
  rwa [List.forall₂_eq_eq_eq] at hentries

/-- Lists can be divided between any two entries. -/
theorem entriesOf_listText_append {ws ws' : List Written} (h : ∀ w ∈ ws ++ ws', w.Simple) :
    entriesOf (String.ofList (listText (ws ++ ws'))) =
      entriesOf (String.ofList (listText ws)) ++ entriesOf (String.ofList (listText ws')) := by
  obtain ⟨hws, hws'⟩ := List.forall_mem_append.1 h
  rw [entriesOf_listText h, entriesOf_listText hws, entriesOf_listText hws', List.map_append]

/-- A list of simple entries neither ends early nor leaves a quote open. -/
theorem passes_listText {ws : List Written} (h : ∀ w ∈ ws, w.Simple) : Passes (listText ws) := by
  cases ws with
  | nil => exact passes_nil
  | cons w ws =>
    obtain ⟨hw, hws⟩ := List.forall_mem_cons.1 h
    exact hw.passes.append (passes_flatMap fun w' hw' => w'.passes_gap.append (hws w' hw').passes)

/-- Lists decode to what they stand for, however they are written, and are closed by the
parenthesis behind them. -/
theorem parse_listText (ws : List Written) (h : ∀ w ∈ ws, w.Simple) :
    Attributes.parse (String.ofList (listText ws)) = Attributes.ofList (ws.map Written.entry) ∧
      ∀ rest, closingOffset? (String.ofList ('(' :: (listText ws ++ ')' :: rest))) =
        some (String.ofList ('(' :: listText ws)).utf8ByteSize := by
  refine ⟨?_, (passes_listText h).closingOffset?⟩
  rw [Attributes.parse, entriesOf_listText h]

/-- Entries in five spellings, the fourth for a name that was set before. -/
def spellings : List Written :=
  [⟨[' '], ⟨"title".toList, by decide⟩,
      some ⟨1, '=', 1, .quoted .double "a) b, c='d'".toList, rfl⟩, by decide, by decide⟩,
    ⟨[' ', ','], ⟨"checked".toList, by decide⟩, none, by decide, by decide⟩,
    ⟨[' ', ' '], ⟨"data-n".toList, by decide⟩,
      some ⟨0, ':', 0, .quoted .single "x (y".toList, rfl⟩, by decide, by decide⟩,
    ⟨[',', ' '], ⟨"title".toList, by decide⟩, some ⟨0, ':', 2, .word "null".toList, rfl⟩,
      by decide, by decide⟩,
    ⟨[' '], ⟨"lang".toList, by decide⟩, some ⟨0, '=', 0, .quoted .double "true".toList, rfl⟩,
      by decide, by decide⟩]

/-- The list of these entries, and the parenthesis behind it. -/
theorem parse_listText_spellings :
    (∀ w ∈ spellings, w.Simple) ∧
      (Attributes.parse
        "title = \"a) b, c='d'\" ,checked  data-n:'x (y', title:  null lang=\"true\"").entries =
          [("title", .flag false), ("checked", .flag true), ("data-n", .text "x (y"),
            ("lang", .text "true")] ∧
      closingOffset?
        "(title = \"a) b, c='d'\" ,checked  data-n:'x (y', title:  null lang=\"true\") p" =
          some 72 := by
  have hsimple : ∀ w ∈ spellings, w.Simple := by decide
  obtain ⟨hparse, hclosing⟩ := parse_listText spellings hsimple
  refine ⟨hsimple, ?_, ?_⟩
  · exact (congrArg Attributes.entries hparse).trans (by decide)
  · exact (hclosing " p".toList).trans (by decide)

end Offside.Attribute
