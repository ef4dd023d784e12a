import Offside.Markup.Attributes
import Offside.Proofs.Interpolation

/-!
# Attribute values

A value is escaped first, and its interpolations are found and read back in what comes out.
None of the characters that an interpolation is written with is escaped, or stands in what an
escaped character becomes (`Markup.isInert`), so escaping a text escapes its segments.

* `Markup.unescape_undoes_escape`: reading entities back undoes escaping, and which ampersands
  an escaped text holds.
* `Segment.Spells.escape`: the segments of an escaped text.
* `Attribute.text_markup_spells`: what is written for a text.
* `Attribute.list_markup_keeps_quotes`: what is written for a list stays inside of its quotes.
-/

set_option autoImplicit false

namespace Offside

open Character Interpolation

namespace Markup

variable {c d : Char} {cs ds front rest : List Char}

/-! ### Characters that stay as they are -/

/-- A character stays as it is, or becomes one of the first four entities. -/
theorem escapeChar_cases (c : Char) :
    (escapeChar c = [c] ∧ c ∉ ['&', '<', '>', '"']) ∨
      ∃ entity ∈ entities.take 4, entity.2 = c ∧ escapeChar c = '&' :: entity.1.toList := by
  unfold escapeChar
  split
  · exact .inr ⟨("amp;", '&'), by simp [entities], rfl, rfl⟩
  · exact .inr ⟨("lt;", '<'), by simp [entities], rfl, rfl⟩
  · exact .inr ⟨("gt;", '>'), by simp [entities], rfl, rfl⟩
  · exact .inr ⟨("quot;", '"'), by simp [entities], rfl, rfl⟩
  · next hamp hlt hgt hquot => exact .inl ⟨rfl, by simpa using ⟨hamp, hlt, hgt, hquot⟩⟩

/-- Whether a character has no entity and stands in none. -/
def isInert (c : Char) : Bool :=
  !"&<>\"ampltgquo;".toList.contains c

theorem isInert_entities :
    ∀ entity ∈ entities.take 4, isInert entity.2 = false ∧
      ∀ c ∈ '&' :: entity.1.toList, isInert c = false := by
  decide

theorem escapeChar_of_isInert (h : isInert c = true) : escapeChar c = [c] := by
  obtain ⟨hc, -⟩ | ⟨entity, hentity, rfl, -⟩ := escapeChar_cases c
  · exact hc
  · rw [(isInert_entities entity hentity).1] at h
    cases h

theorem eq_of_mem_escapeChar (h : isInert c = true) (hc : c ∈ escapeChar d) : c = d := by
  obtain ⟨hd, -⟩ | ⟨entity, hentity, -, hd⟩ := escapeChar_cases d
  · rw [hd] at hc
    exact List.mem_singleton.1 hc
  · rw [hd] at hc
    rw [(isInert_entities entity hentity).2 c hc] at h
    cases h

theorem escapeChars_cons (c : Char) (cs : List Char) :
    escapeChars (c :: cs) = escapeChar c ++ escapeChars cs :=
  List.flatMap_cons

theorem mem_of_mem_escapeChars (hc : isInert c = true) (h : c ∈ escapeChars cs) : c ∈ cs := by
  obtain ⟨d, hd, hmem⟩ := List.mem_flatMap.1 h
  rw [eq_of_mem_escapeChar hc hmem]
  exact hd

theorem not_mem_escapeChars (hc : c ∈ ['<', '>', '"']) : c ∉ escapeChars cs := by
  intro h
  have hentities : ∀ entity ∈ entities.take 4, ∀ x ∈ '&' :: entity.1.toList,
      x ∉ ['<', '>', '"'] := by
    decide
  obtain ⟨d, -, hmem⟩ := List.mem_flatMap.1 h
  obtain ⟨hd, hbare⟩ | ⟨entity, hentity, -, hd⟩ := escapeChar_cases d
  · rw [hd, List.mem_singleton] at hmem
    subst hmem
    exact hbare (List.mem_cons_of_mem _ hc)
  · rw [hd] at hmem
    exact hentities entity hentity c hmem hc

/-! ### Reading entities back -/

theorem outcome_readEntity (cs : List Char) :
    ∀ entity ∈ entities.take 4,
      Reader.outcome readEntity ('&' :: (entity.1.toList ++ cs)) = some (entity.2, cs) := by
  intro entity hentity
  simp only [entities, List.take_succ_cons, List.take_zero, List.mem_cons, List.not_mem_nil,
    or_false] at hentity
  obtain rfl | rfl | rfl | rfl := hentity <;> rfl

theorem unescapeChars_escapeChar_append (c : Char) (cs : List Char) :
    unescapeChars (escapeChar c ++ cs) = c :: unescapeChars cs := by
  obtain ⟨hc, hbare⟩ | ⟨entity, hentity, rfl, hc⟩ := escapeChar_cases c
  · rw [hc]
    have hne : c ≠ '&' := by
      rintro rfl
      exact hbare List.mem_cons_self
    have hnone : Reader.outcome readEntity (c :: cs) = none := by
      unfold Reader.outcome
      rw [readEntity]
      · rfl
      · simpa using hne
    exact replaceSpans_of_outcome_none _ hnone
  · rw [hc]
    exact replaceSpans_of_outcome_some _ (outcome_readEntity cs entity hentity)

/-- Reading the entities of an escaped text back gives the text, also where it holds entities
of its own. -/
theorem unescapeChars_escapeChars (cs : List Char) : unescapeChars (escapeChars cs) = cs := by
  induction cs with
  | nil => exact replaceSpans_nil _ _
  | cons c cs ih => rw [escapeChars_cons, unescapeChars_escapeChar_append, ih]

/-- Each ampersand of an escaped text starts one of the first four entities. -/
theorem exists_entity_of_ampersand (h : escapeChars cs = front ++ '&' :: rest) :
    ∃ entity ∈ entities.take 4, entity.1.toList <+: rest := by
  have hnames : ∀ entity ∈ entities.take 4, '&' ∉ entity.1.toList := by decide
  induction cs generalizing front with
  | nil => simp [escapeChars] at h
  | cons d cs ih =>
    rw [escapeChars_cons] at h
    obtain ⟨hd, hbare⟩ | ⟨entity, hentity, -, hd⟩ := escapeChar_cases d
    · rw [hd, List.singleton_append] at h
      cases front with
      | nil =>
        -- The character is an ampersand, and would have become an entity.
        obtain ⟨rfl, -⟩ := List.cons.inj h
        exact absurd List.mem_cons_self hbare
      | cons x front => exact ih (List.cons.inj h).2
    · rw [hd, List.cons_append] at h
      cases front with
      | nil =>
        obtain ⟨-, rfl⟩ := List.cons.inj h
        exact ⟨entity, hentity, List.prefix_append _ _⟩
      | cons x front =>
        -- The ampersand is not the one in front of this entity, and stands behind its name.
        obtain ⟨inner, -, htail⟩ | ⟨inner, hname, htail⟩ :=
          List.append_eq_append_iff.1 (List.cons.inj h).2
        · exact ih htail
        · cases inner with
          | nil => exact ih (show escapeChars cs = [] ++ '&' :: rest from htail.symm)
          | cons y inner =>
            obtain ⟨rfl, -⟩ := List.cons.inj htail
            refine absurd ?_ (hnames entity hentity)
            rw [hname]
            exact List.mem_append_right _ List.mem_cons_self

/-- Reading entities back undoes escaping, for every text: one level only is read back where the
text holds entities or parts of them. In an escaped text nothing has a meaning in markup but the
ampersands, each of which starts one of the four entities that are written. -/
theorem unescape_undoes_escape (text : String) :
    unescape (escape text) = text ∧
    (∀ c ∈ ['<', '>', '"'], c ∉ (escape text).toList) ∧
    ∀ front rest, (escape text).toList = front ++ '&' :: rest →
      ∃ entity ∈ ["&amp;", "&lt;", "&gt;", "&quot;"], entity.toList <+: '&' :: rest := by
  have hescape : (escape text).toList = escapeChars text.toList := String.toList_ofList
  refine ⟨?_, ?_, ?_⟩
  · rw [unescape, hescape, unescapeChars_escapeChars, String.ofList_toList]
  · intro c hc
    rw [hescape]
    exact not_mem_escapeChars hc
  · intro front rest h
    rw [hescape] at h
    obtain ⟨entity, hentity, hpre⟩ := exists_entity_of_ampersand h
    have hnamed : ∀ entity ∈ entities.take 4,
        "&" ++ entity.1 ∈ ["&amp;", "&lt;", "&gt;", "&quot;"] := by decide
    refine ⟨"&" ++ entity.1, hnamed entity hentity, ?_⟩
    rw [String.toList_append]
    exact List.cons_prefix_cons.2 ⟨rfl, hpre⟩

/-- An entity, a part of one, a bare ampersand and an entity that is written out. What starts at
the third ampersand of the escaped text is an entity. -/
theorem unescape_undoes_escape_entities :
    let text := "&lt; &l & &amp;lt;<"
    escape text = "&amp;lt; &amp;l &amp; &amp;amp;lt;&lt;" ∧
      unescape (escape text) = text ∧
      ∃ entity ∈ ["&amp;", "&lt;", "&gt;", "&quot;"],
        entity.toList <+: '&' :: "amp; &amp;amp;lt;&lt;".toList := by
  intro text
  have hescape : escape text = "&amp;lt; &amp;l &amp; &amp;amp;lt;&lt;" := by decide +kernel
  obtain ⟨hback, -, hentity⟩ := unescape_undoes_escape text
  have hfront : (escape text).toList =
      "&amp;lt; &amp;l ".toList ++ '&' :: "amp; &amp;amp;lt;&lt;".toList := by decide +kernel
  exact ⟨hescape, hback, hentity _ _ hfront⟩

end Markup

namespace Segment

open Markup

/-! ### The segments of an escaped text -/

/-- Whether a segment is an interpolation that is not escaped. -/
def isLive : Segment → Bool
  | span (.live _) => true
  | _ => false

/-- What stands in the value of an attribute for a segment: everything but the expression of
an interpolation is escaped. -/
def inValue : Segment → List Char
  | literal text => escapeChars text
  | span (.live expression) => "<?= ".toList ++ expression ++ " ?>".toList
  | span (.escaped expression) => '#' :: '{' :: escapeChars expression ++ ['}']

variable {text : List Char} {segments : List Segment} {cs : List Char}

theorem keepsMarks_escapeChar : KeepsMarks escapeChar := by
  have hmarks : ∀ c ∈ marks, isInert c = true := by decide
  refine ⟨fun c hc => escapeChar_of_isInert (hmarks c hc),
    fun c hc d hd => eq_of_mem_escapeChar (hmarks c hc) hd, fun d => ?_⟩
  obtain ⟨hd, -⟩ | ⟨entity, -, -, hd⟩ := escapeChar_cases d <;> simp [hd]

theorem markup_map_escape (s : Segment) : (s.map escapeChars).markup true = s.inValue := by
  match s with
  | .literal text => rfl
  | .span (.live expression) =>
    rw [map, markup, Interpolation.Span.markup, if_pos rfl, unescapeChars_escapeChars, inValue]
  | .span (.escaped expression) => rfl

/-- Escaping a text escapes its segments where they stand. -/
theorem Spells.escape (h : Spells segments cs) :
    Spells (segments.map (map escapeChars)) (escapeChars cs) :=
  h.flatMap keepsMarks_escapeChar

theorem Spells.interpolateChars_escape (h : Spells segments cs) :
    interpolateChars true (escapeChars cs) = segments.flatMap inValue := by
  rw [← h.escape.written_eq, interpolateChars_written h.escape.met, List.flatMap_map]
  congr 1
  funext s
  exact markup_map_escape s

theorem not_mem_inValue {s : Segment} (hs : s.isLive = false) {c : Char}
    (hc : c ∈ ['<', '>', '"']) : c ∉ s.inValue := by
  match s with
  | .literal text => exact not_mem_escapeChars hc
  | .span (.live expression) => cases hs
  | .span (.escaped expression) =>
    show c ∉ '#' :: '{' :: expression.flatMap escapeChar ++ ['}']
    rw [← keepsMarks_escapeChar.flatMap_braces]
    exact not_mem_escapeChars hc

end Segment

namespace Attribute

open Markup Segment

/-- What is written for a text. It consists of segments in some way, and whichever way that is,
the value consists of the same segments one after the other: literals and escaped
interpolations are escaped, and the expression of an interpolation stands there as it was.
The escaped text has the same segments, and what has a meaning in markup stands in
interpolations only. -/
theorem text_markup_spells (key value : String) :
    (∃ segments, Spells segments value.toList) ∧
    ∀ segments, Spells segments value.toList →
      Entry.markup (key, .text value) =
        " " ++ key ++ "=\"" ++ String.ofList (segments.flatMap inValue) ++ "\"" ∧
      Spells (segments.map (map escapeChars)) (escape value).toList ∧
      ∀ s ∈ segments, s.isLive = false → ∀ c ∈ ['<', '>', '"'], c ∉ s.inValue := by
  refine ⟨exists_spells value.toList, fun segments h => ⟨?_, ?_, ?_⟩⟩
  · rw [Entry.markup, interpolate, escape, String.toList_ofList, h.interpolateChars_escape]
  · rw [escape, String.toList_ofList]
    exact h.escape
  · intro s _ hs c hc
    exact not_mem_inValue hs hc

/-- A text with an opening that is never closed, entities of its own and both kinds of
interpolations. -/
theorem text_markup_spells_mixed :
    Entry.markup ("title", .text "<#\x7ba<\"&lt;\"\x7d\\#\x7b&\x7d&lt;") =
      " title=\"&lt;<?= a<\"&lt;\" ?>#\x7b&amp;\x7d&amp;lt;\"" := by
  let segments : List Segment :=
    [.literal ['<'], .span (.live "a<\"&lt;\"".toList), .span (.escaped ['&']),
      .literal "&lt;".toList]
  have hapart : Apart segments := ⟨by decide, by decide⟩
  have hspells : Spells segments "<#\x7ba<\"&lt;\"\x7d\\#\x7b&\x7d&lt;".toList :=
    ⟨hapart.met, by decide +kernel⟩
  refine ((text_markup_spells "title" _).2 segments hspells).1.trans ?_
  decide +kernel

/-- A single quote becomes a double one. -/
def requote (c : Char) : Char :=
  if c = '\'' then '"' else c

theorem toList_listMarkup (items : List String) :
    (listMarkup items).toList =
      if occursIn (" ".intercalate items) then
        '\'' :: interpolateChars true
          (escapeChars ((" ".intercalate items).toList.map requote)) ++ ['\'']
      else '"' :: escapeChars (" ".intercalate items).toList ++ ['"'] := by
  have hrequote : requote = fun c => if c = '\'' then '"' else c := rfl
  rw [listMarkup, hrequote]
  split
  · simp [interpolate, escape]
  · simp [escape]

/-- A character that is not written around interpolations comes from the text. -/
theorem not_mem_flatMap_inValue {segments : List Segment} {cs : List Char} {c : Char}
    (h : Spells segments cs) (hbare : Markup.isInert c = true) (hfront : c ∉ "<?= ".toList)
    (hback : c ∉ " ?>".toList) (hc : c ∉ cs) : c ∉ segments.flatMap inValue := by
  rw [← h.written_eq] at hc
  intro hmem
  obtain ⟨s, hs, hmem⟩ := List.mem_flatMap.1 hmem
  refine hc (List.mem_flatMap.2 ⟨s, hs, ?_⟩)
  match s with
  | .literal text => exact mem_of_mem_escapeChars hbare hmem
  | .span (.live expression) =>
    rw [inValue, List.mem_append, List.mem_append] at hmem
    have hexpression : c ∈ expression := (hmem.resolve_right hback).resolve_left hfront
    simp [Segment.written, Interpolation.Span.written, hexpression]
  | .span (.escaped expression) =>
    change _ ∈ '#' :: '{' :: expression.flatMap escapeChar ++ ['}'] at hmem
    rw [← keepsMarks_escapeChar.flatMap_braces] at hmem
    exact List.mem_cons_of_mem _ (mem_of_mem_escapeChars hbare hmem)

/-- What is written for a list stays inside of its quotes. Single quotes are taken exactly if
the joined list holds an interpolation; the single quotes of the list are double ones then, and
its segments are those of a text. Otherwise the list is escaped as a whole. -/
theorem list_markup_keeps_quotes (key : String) (items : List String) :
    let joined := (" ".intercalate items).toList
    ∃ quote body,
      (Entry.markup (key, .list items)).toList =
        ' ' :: key.toList ++ '=' :: quote :: body ++ [quote] ∧
      quote ∉ body ∧
      (quote = '\'' ∨ quote = '"') ∧
      (quote = '\'' ↔ ∃ front expression back,
        joined = front ++ '#' :: '{' :: expression ++ '}' :: back) ∧
      (quote = '\'' → ∃ segments,
        Spells segments (joined.map requote) ∧ body = segments.flatMap inValue) ∧
      (quote = '"' → body = escapeChars joined) := by
  intro joined
  have hoccurs : occursIn (" ".intercalate items) = true ↔ ∃ front expression back,
      joined = front ++ '#' :: '{' :: expression ++ '}' :: back := by
    rw [occursIn_eq, any_isSpan_cut_iff]
    simp [Span.written, joined]
  have hmarkup : (Entry.markup (key, .list items)).toList =
      ' ' :: key.toList ++ '=' :: (listMarkup items).toList := by
    simp [Entry.markup]
  rw [hmarkup, toList_listMarkup, ← hoccurs]
  split
  · next h =>
    obtain ⟨segments, hsegments⟩ := exists_spells (joined.map requote)
    refine ⟨'\'', segments.flatMap inValue, ?_, ?_, .inl rfl, iff_of_true rfl h, ?_, ?_⟩
    · rw [hsegments.interpolateChars_escape]
      simp
    · refine not_mem_flatMap_inValue hsegments (by decide) (by decide) (by decide) fun hquote => ?_
      obtain ⟨c, -, hc⟩ := List.mem_map.1 hquote
      unfold requote at hc
      split at hc
      · cases hc
      · next hne => exact hne hc
    · exact fun _ => ⟨segments, hsegments, rfl⟩
    · exact fun hquote => absurd hquote (by decide)
  · next h =>
    refine ⟨'"', escapeChars joined, by simp [joined], not_mem_escapeChars (by simp), .inr rfl,
      iff_of_false (by decide) h, ?_, fun _ => rfl⟩
    exact fun hquote => absurd hquote (by decide)

/-- An interpolation that starts in one item and ends in the next, with quotes in it. -/
theorem list_markup_keeps_quotes_joined :
    ∃ body, (Entry.markup ("class", .list ["a'#\x7bb", "'&#039;'\x7d"])).toList =
        " class='".toList ++ body ++ ['\''] ∧ '\'' ∉ body := by
  obtain ⟨quote, body, hmarkup, hnot, -, hquote, -⟩ :=
    list_markup_keeps_quotes "class" ["a'#\x7bb", "'&#039;'\x7d"]
  obtain rfl := hquote.2 ⟨"a'".toList, "b '&#039;'".toList, [], by decide +kernel⟩
  exact ⟨body, hmarkup, hnot⟩

end Attribute

end Offside
