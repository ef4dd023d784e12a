import Offside.Proofs.Attribute.Written
import Offside.Proofs.Document.Heads
import Offside.Proofs.Outline.Reading

/-!
# A head on a line of its own

The text of a head, and what becomes of it as a template: a document with the tag of that head and
nothing else (`parse_head`). As for outlines, the parts of a head are scanned one by one
(`emits_parts`), and their lexemes are read as marks of the tag in front (`outcome_tag_of_marks`).
-/

set_option autoImplicit false

namespace Offside

open Offside.Character
open Attribute (Passes readClosing)

/-! ### Attribute lists that are closed -/

namespace Attribute

/-- The text of an attribute list that the parenthesis behind it closes. -/
def Closes (raw : List Char) : Prop :=
  Reader.outcome (readClosing none 1) (raw ++ [')']) = some (raw, [])
deriving Decidable

/-- Behind a character that does not end the list, reading goes on in a state that depends on
what was read only. -/
theorem exists_outcome_readClosing (quote : Option Char) (depth : Nat) (c : Char) :
    ∃ quote' depth', ∀ cs, Reader.outcome (readClosing quote depth) (c :: cs) =
      if c = '\n' then none
      else if quote = none ∧ c = ')' ∧ depth = 1 then some ([], cs)
      else if quote = none ∧ c = ')' ∧ depth = 0 then none
      else (Reader.outcome (readClosing quote' depth') cs).map fun out => (c :: out.1, out.2) := by
  -- The character with what is read behind it.
  have hbehind : ∀ {cs : List Char} {r r' : Option (List Char × Rest cs)}, r = r' →
      r'.map (fun out => (c :: out.1, out.2.1)) =
        (r.map fun out => (out.1, out.2.1)).map fun out => (c :: out.1, out.2) := by
    rintro cs r _ rfl
    cases r <;> rfl
  unfold Reader.outcome
  -- The state behind the character is left to be found where the definition names it.
  apply Exists.intro
  apply Exists.intro
  intro cs
  rw [readClosing.eq_def]
  dsimp only
  rw [apply_ite (Option.map _), apply_ite (Option.map _), apply_ite (Option.map _)]
  refine if_congr Iff.rfl rfl (if_congr Iff.rfl rfl (if_congr Iff.rfl rfl ?_))
  split
  · next hread => exact hbehind hread
  · next hread => exact hbehind hread

/-- A parenthesis closes a list outside of quotes and of other lists only. -/
theorem Closes.passes {raw : List Char} (h : Closes raw) : Passes raw := by
  have hrun : ∀ (raw : List Char) (quote : Option Char) (depth : Nat),
      Reader.outcome (readClosing quote depth) (raw ++ [')']) = some (raw, []) →
      ∀ cs, Reader.outcome (readClosing quote depth) (raw ++ cs) =
        (Reader.outcome (readClosing none 1) cs).map fun out => (raw ++ out.1, out.2) := by
    intro raw
    induction raw with
    | nil =>
      intro quote depth h cs
      obtain ⟨quote', depth', hstep⟩ := exists_outcome_readClosing quote depth ')'
      rw [List.nil_append, hstep, if_neg (by decide)] at h
      split at h
      · next hends =>
        obtain ⟨rfl, -, rfl⟩ := hends
        simp
      · split at h <;> cases h
    | cons c raw ih =>
      intro quote depth h cs
      obtain ⟨quote', depth', hstep⟩ := exists_outcome_readClosing quote depth c
      rw [List.cons_append, hstep] at h ⊢
      -- The list goes on behind the character, and so it does in front of any other text.
      split at h
      · cases h
      · split at h
        · cases h
        · split at h
          · cases h
          · obtain ⟨out, hout, heq⟩ := Option.map_eq_some_iff.1 h
            obtain ⟨body, rest⟩ := out
            obtain ⟨rfl, rfl⟩ : body = raw ∧ rest = [] := by simpa using heq
            next hbreak hclose hzero =>
            rw [if_neg hbreak, if_neg hclose, if_neg hzero, ih quote' depth' hout cs,
              Option.map_map]
            rfl
  exact hrun raw none 1 h

end Attribute

/-! ### The text of a head -/

/-- The raw text of a list with spaces at its ends. -/
def Spacing.pad (s : Spacing) (raw : String) : List Char :=
  List.replicate s.opening ' ' ++ raw.toList ++ List.replicate s.closing ' '

namespace Part

/-- A part as it is written. -/
def text : Part → List Char
  | id name => '#' :: name.toList
  | className name => '.' :: name.toList
  | list raw s => List.replicate s.before ' ' ++ '(' :: (s.pad raw ++ [')'])

/-- The token that a part is scanned as. -/
def token : Part → Token
  | id name => .idName name
  | className name => .className name
  | list raw _ => .attributes raw (Attributes.parse raw)

/-- The names that shorthands can have. -/
def IsShorthand (name : String) : Prop :=
  name.toList ≠ [] ∧ ∀ c ∈ name.toList, isName c = true

/-- The texts of attribute lists: on one line, without tabs and without blanks at the ends, and
closed by the parenthesis behind. -/
def IsListText (raw : String) : Prop :=
  raw.toList ≠ [] ∧ (∀ c ∈ raw.toList.head?, isBlank c = false) ∧
    (∀ c ∈ raw.toList.getLast?, isBlank c = false) ∧
    (∀ c ∈ raw.toList, c ≠ '\n' ∧ c ≠ '\r' ∧ c ≠ '\t') ∧ Attribute.Closes raw.toList

/-- A part that is scanned as its token. -/
def Valid : Part → Prop
  | id name | className name => IsShorthand name
  | list raw _ => IsListText raw

instance (name : String) : Decidable (IsShorthand name) :=
  inferInstanceAs (Decidable (_ ∧ _))

instance (raw : String) : Decidable (IsListText raw) :=
  inferInstanceAs (Decidable (_ ∧ _ ∧ _ ∧ _ ∧ _))

instance : DecidablePred Valid
  | id name | className name => inferInstanceAs (Decidable (IsShorthand name))
  | list raw _ => inferInstanceAs (Decidable (IsListText raw))

end Part

/-- A head as it is written. -/
def Head.text (h : Head) : String :=
  String.ofList (h.name.toList ++ h.parts.flatMap Part.text)

/-- A head on the first line that is scanned as its name and its parts. -/
structure Head.Valid (h : Head) : Prop where
  line : h.line = 1
  name : Outline.IsName h.name
  parts : ∀ p ∈ h.parts, p.Valid

namespace Outline

open Scanner (Emits)

/-! ### Scanning a head -/

variable {k depth line : Nat} {s : Scanner} {rest : List Char}

theorem exists_of_outcome {α : Type} {reader : Reader α} {cs : List Char} {a : α}
    (h : reader.outcome cs = some (a, rest)) : ∃ hlt, reader cs = some (a, ⟨rest, hlt⟩) := by
  obtain ⟨⟨a', rest', hlt⟩, hread, heq⟩ := Option.map_eq_some_iff.1 h
  obtain ⟨rfl, rfl⟩ := Prod.mk.inj heq
  exact ⟨hlt, hread⟩

theorem outcome_readMarked (mark : Char) (make : String → Token) {name : String}
    (hname : Part.IsShorthand name) (hrest : ∀ c ∈ rest.head?, isName c = false) :
    Reader.outcome (Token.readMarked mark make) (mark :: (name.toList ++ rest)) =
      some (make name, rest) := by
  obtain ⟨hne, hchars⟩ := hname
  cases hcs : name.toList with
  | nil => exact absurd hcs hne
  | cons c cs =>
    rw [hcs] at hchars
    obtain ⟨hc, hcs'⟩ := List.forall_mem_cons.1 hchars
    have hread : Token.readMarked mark make (mark :: c :: (cs ++ rest)) = _ :=
      if_pos (by simp [hc])
    rw [List.cons_append, Reader.outcome, hread, Option.map_some,
      takeWhile_append_of_stop hcs' hrest, ← hcs, String.ofList_toList]
    exact congrArg (fun r => some (make name, r)) (dropWhile_append_of_stop hcs' hrest)

section List

variable {raw : String} {s : Spacing}

theorem dropWhile_text_list (raw : String) (s : Spacing) (rest : List Char) :
    ((Part.list raw s).text ++ rest).dropWhile isSpace = '(' :: (s.pad raw ++ ')' :: rest) := by
  have htext : (Part.list raw s).text ++ rest =
      List.replicate s.before ' ' ++ '(' :: (s.pad raw ++ ')' :: rest) := by
    simp [Part.text]
  rw [htext]
  refine dropWhile_append_of_stop (fun c hc => ?_) (by rintro c ⟨⟩; rfl)
  rw [List.eq_of_mem_replicate hc]
  rfl

theorem passes_pad (h : Part.IsListText raw) : Passes (s.pad raw) := by
  obtain ⟨-, -, -, -, hcloses⟩ := h
  have hspaces : ∀ n, Passes (List.replicate n ' ') := by
    intro n
    refine Attribute.passes_of_isNeutral fun c hc => ?_
    rw [List.eq_of_mem_replicate hc]
    rfl
  exact ((hspaces _).append hcloses.passes).append (hspaces _)

theorem trim_pad (h : Part.IsListText raw) : trim isBlank (s.pad raw) = raw.toList := by
  obtain ⟨hne, hhead, hlast, -, -⟩ := h
  have hspaces : ∀ n, ∀ c ∈ List.replicate n ' ', isBlank c = true := by
    intro n c hc
    rw [List.eq_of_mem_replicate hc]
    rfl
  exact trim_between (hspaces _) (hspaces _) hne hhead hlast

theorem mem_pad {c : Char} (h : c ∈ s.pad raw) : c = ' ' ∨ c ∈ raw.toList := by
  simp only [Spacing.pad, List.mem_append, List.mem_replicate] at h
  rcases h with (⟨-, h⟩ | h) | ⟨-, h⟩
  · exact .inl h
  · exact .inr h
  · exact .inl h

/-- Some character stands in front of the closing parenthesis, on the same line. -/
theorem startsAttributes_list (h : Part.IsListText raw) (rest : List Char) :
    Token.startsAttributes ((Part.list raw s).text ++ rest) = true := by
  obtain ⟨hne, -, -, hchars, -⟩ := h
  have hline : line (s.pad raw ++ ')' :: rest) = s.pad raw ++ ')' :: line rest := by
    have hbreak : ∀ c ∈ s.pad raw ++ [')'], decide (c ≠ '\n') = true := by
      intro c hc
      rcases List.mem_append.1 hc with hc | hc
      · rcases mem_pad hc with rfl | hc
        · rfl
        · exact decide_eq_true (hchars c hc).1
      · rw [List.mem_singleton.1 hc]
        rfl
    rw [line, List.append_cons, List.takeWhile_append_of_pos hbreak, List.append_assoc]
    rfl
  obtain ⟨b, bs, hbs⟩ : ∃ b bs, s.pad raw = b :: bs := by
    refine List.exists_cons_of_ne_nil ?_
    simp [Spacing.pad, hne]
  rw [Token.startsAttributes_eq, dropWhile_text_list, after?_cons_singleton, if_pos rfl,
    Option.any_some, hline, hbs]
  simp

theorem outcome_readAttributes (h : Part.IsListText raw) (rest : List Char) :
    Reader.outcome Token.readAttributes ((Part.list raw s).text ++ rest) =
      some (.attributes raw (Attributes.parse raw), rest) := by
  rw [Token.outcome_readAttributes, if_pos (startsAttributes_list h rest), dropWhile_text_list,
    after?_cons_singleton, if_pos rfl, Option.bind_some, passes_pad h,
    Attribute.outcome_readClosing_close, Option.map_some, Option.map_some, List.append_nil]
  dsimp only
  rw [trim_pad h, String.ofList_toList]

end List

theorem exists_text_list_eq_cons (raw : String) (s : Spacing) :
    ∃ c cs, (Part.list raw s).text = c :: cs ∧ (c = ' ' ∨ c = '(') := by
  rw [Part.text]
  cases s.before with
  | zero => exact ⟨_, _, rfl, .inr rfl⟩
  | succ n => exact ⟨_, _, rfl, .inl rfl⟩

/-- The characters that a part starts with. -/
theorem exists_text_eq_cons (p : Part) :
    ∃ c cs, p.text = c :: cs ∧ (c = '#' ∨ c = '.' ∨ c = ' ' ∨ c = '(') := by
  cases p with
  | id name => exact ⟨_, _, rfl, .inl rfl⟩
  | className name => exact ⟨_, _, rfl, .inr (.inl rfl)⟩
  | list raw s =>
    obtain ⟨c, cs, hcs, hc⟩ := exists_text_list_eq_cons raw s
    exact ⟨c, cs, hcs, .inr (.inr hc)⟩

/-- A part ends the name in front of it. -/
theorem isTagName_head_parts (parts : List Part) (hrest : ∀ c ∈ rest.head?, isTagName c = false) :
    ∀ c ∈ (parts.flatMap Part.text ++ rest).head?, isTagName c = false := by
  cases parts with
  | nil => exact hrest
  | cons p parts =>
    obtain ⟨c, cs, hcs, hc⟩ := exists_text_eq_cons p
    rw [List.flatMap_cons, hcs]
    rintro d ⟨⟩
    rcases hc with rfl | rfl | rfl | rfl <;> rfl

/-- Where a part starts, only the readers of parts do not decline. -/
theorem read_eq_none_of_part {c : Char} (cs : List Char)
    (hc : c = '#' ∨ c = '.' ∨ c = ' ' ∨ c = '(')
    (hcomment : ((c :: cs).dropWhile isSpace).head? ≠ some '/') :
    ∀ reader ∈ [Token.readDoctype, Token.readTag, Token.readPipe, Token.readMarkup,
      Token.readFilter, Token.readCode, Token.readComment], reader (c :: cs) = none := by
  have hnone := readComment_eq_none hcomment
  rcases hc with rfl | rfl | rfl | rfl <;>
    simp [Token.readDoctype, after?, Token.readTag, isWord, Token.readPipe, Token.readMarkup,
      Token.readFilter, Token.readCode, hnone]

/-- A part is read as its token, in front of what does not go on with a name. -/
theorem read_part {p : Part} (hp : p.Valid) (hrest : ∀ c ∈ rest.head?, isTagName c = false) :
    ∃ h, Token.read (p.text ++ rest) = some (p.token, ⟨rest, h⟩) := by
  have hname : ∀ c ∈ rest.head?, isName c = false :=
    fun c hc => (Bool.or_eq_false_iff.1 (hrest c hc)).1
  have hmarked : ∀ {c : Char} {cs : List Char} (mark : Char) (make : String → Token), c ≠ mark →
      Token.readMarked mark make (c :: cs) = none :=
    fun mark make hne => Token.readMarked_eq_none (by simpa using hne)
  cases p with
  | id name =>
    obtain ⟨hlt, hread⟩ := exists_of_outcome (outcome_readMarked '#' .idName hp hname)
    have hbefore := read_eq_none_of_part (name.toList ++ rest) (.inl rfl) (by simp [isSpace])
    exact ⟨hlt, read_eq_of_readers _ rfl hbefore hread⟩
  | className name =>
    obtain ⟨hlt, hread⟩ := exists_of_outcome (outcome_readMarked '.' .className hp hname)
    have hbefore := List.forall_mem_append.2
      ⟨read_eq_none_of_part (name.toList ++ rest) (.inr (.inl rfl)) (by simp [isSpace]),
        List.forall_mem_singleton.2 (hmarked '#' .idName (by decide))⟩
    exact ⟨hlt, read_eq_of_readers _ rfl hbefore hread⟩
  | list raw s =>
    have houtcome := outcome_readAttributes (s := s) hp rest
    have hcomment : (((Part.list raw s).text ++ rest).dropWhile isSpace).head? ≠ some '/' := by
      rw [dropWhile_text_list]
      simp
    obtain ⟨c, cs, hcs, hc⟩ := exists_text_list_eq_cons raw s
    have hne : c ≠ '#' ∧ c ≠ '.' := by rcases hc with rfl | rfl <;> decide
    rw [hcs, List.cons_append] at houtcome hcomment ⊢
    obtain ⟨hlt, hread⟩ := exists_of_outcome houtcome
    have hbefore := List.forall_mem_append.2
      ⟨read_eq_none_of_part (cs ++ rest) (.inr (.inr hc)) hcomment, List.forall_mem_cons.2
        ⟨hmarked '#' .idName hne.1, List.forall_mem_singleton.2 (hmarked '.' .className hne.2)⟩⟩
    exact ⟨hlt, read_eq_of_readers _ rfl hbefore hread⟩

/-- Parts are scanned one by one. -/
theorem emits_parts {parts : List Part} (hparts : ∀ p ∈ parts, p.Valid)
    (hrest : ∀ c ∈ rest.head?, isTagName c = false)
    (hs : At k s depth line (parts.flatMap Part.text ++ rest)) :
    ∃ s', Emits s (parts.map fun p => ⟨p.token, line⟩) s' ∧ At k s' depth line rest := by
  induction parts generalizing s with
  | nil => exact ⟨s, .refl s, hs⟩
  | cons p parts ih =>
    obtain ⟨hp, hparts⟩ := List.forall_mem_cons.1 hparts
    have hread := read_part hp (isTagName_head_parts parts hrest)
    rw [List.flatMap_cons, List.append_assoc] at hs
    obtain ⟨c, cs, hcs, hc⟩ := exists_text_eq_cons p
    rw [hcs] at hs hread
    obtain ⟨hlt, hread⟩ := hread
    have hbreak : c ≠ '\n' := by rcases hc with rfl | rfl | rfl | rfl <;> decide
    obtain ⟨s₁, hnext, hat, -⟩ := hs.next_token hbreak hread (by cases p <;> rfl)
    obtain ⟨s', hemits, hat'⟩ := ih hparts hat
    exact ⟨s', .step hnext (by cases p <;> exact nofun) hemits, hat'⟩

theorem emits_head {h : Head} (hh : h.Valid) (hrest : ∀ c ∈ rest.head?, isTagName c = false)
    (hs : At k s depth line (h.text.toList ++ rest)) :
    ∃ s', Emits s (⟨.tag h.name, line⟩ :: h.parts.map fun p => ⟨p.token, line⟩) s' ∧
      At k s' depth line rest := by
  rw [Head.text, String.toList_ofList, List.append_assoc] at hs
  obtain ⟨s₁, hnext, hat, -⟩ := hs.next_name hh.name (isTagName_head_parts h.parts hrest)
  obtain ⟨s', hemits, hat'⟩ := emits_parts hh.parts hrest hat
  exact ⟨s', .step hnext nofun hemits, hat'⟩

/-! ### A head as a source -/

theorem isMargin_of_isShorthand {name : String} (h : Part.IsShorthand name) :
    ∀ c ∈ name.toList, Source.isMargin c = false :=
  fun c hc => isMargin_of_isTagName (Bool.or_eq_true_iff.2 (.inl (h.2 c hc)))

/-- A part is written without tabs, and on one line. -/
theorem ne_of_mem_text {p : Part} (hp : p.Valid) : ∀ c ∈ p.text, c ≠ '\r' ∧ c ≠ '\t' := by
  have hmargin : ∀ c, Source.isMargin c = false → c ≠ '\r' ∧ c ≠ '\t' := by
    intro c hc
    constructor <;> rintro rfl <;> exact absurd hc (by decide)
  intro c hc
  cases p with
  | id name | className name =>
    rcases List.mem_cons.1 hc with rfl | hc
    · decide
    · exact hmargin c (isMargin_of_isShorthand hp c hc)
  | list raw s =>
    simp only [Part.text, List.mem_append, List.mem_cons, List.not_mem_nil, or_false] at hc
    rcases hc with hc | rfl | hc | rfl
    · rw [List.eq_of_mem_replicate hc]
      decide
    · decide
    · rcases mem_pad hc with rfl | hc
      · decide
      · exact (hp.2.2.2.1 c hc).2
    · decide

theorem isMargin_getLast_text {p : Part} (hp : p.Valid) :
    ∀ c ∈ p.text.getLast?, Source.isMargin c = false := by
  cases p with
  | id name | className name =>
    obtain ⟨d, ds, hds⟩ := List.exists_cons_of_ne_nil hp.1
    intro c hc
    rw [Part.text, hds, List.getLast?_cons_cons, ← hds] at hc
    exact isMargin_of_isShorthand hp c (List.mem_of_getLast? hc)
  | list raw s =>
    intro c hc
    rw [Part.text, List.getLast?_append_of_ne_nil _ (List.cons_ne_nil _ _), ← List.cons_append,
      List.getLast?_concat] at hc
    obtain rfl := Option.some.inj hc
    rfl

theorem isMargin_getLast_parts {cs : List Char} {parts : List Part}
    (hcs : ∀ c ∈ cs.getLast?, Source.isMargin c = false) (hparts : ∀ p ∈ parts, p.Valid) :
    ∀ c ∈ (cs ++ parts.flatMap Part.text).getLast?, Source.isMargin c = false := by
  induction parts generalizing cs with
  | nil => rwa [List.flatMap_nil, List.append_nil]
  | cons p parts ih =>
    obtain ⟨hp, hparts⟩ := List.forall_mem_cons.1 hparts
    rw [List.flatMap_cons, ← List.append_assoc]
    refine ih ?_ hparts
    -- A part is never empty, so it decides how the text up to it ends.
    obtain ⟨d, ds, hds, -⟩ := exists_text_eq_cons p
    rw [List.getLast?_append_of_ne_nil _ (hds ▸ List.cons_ne_nil d ds)]
    exact isMargin_getLast_text hp

/-- A head is scanned as it is written. -/
theorem normalize_head (layout : Layout) {h : Head} (hh : h.Valid) :
    Source.normalize layout h.text = h.text.toList := by
  obtain ⟨d, ds, hname, hd, -⟩ := hh.name.toList_eq
  have hchars : ∀ c ∈ h.text.toList, c ≠ '\r' ∧ c ≠ '\t' := by
    intro c hc
    rw [Head.text, String.toList_ofList] at hc
    rcases List.mem_append.1 hc with hc | hc
    · have hc := hh.name.isMargin_of_mem hc
      constructor <;> rintro rfl <;> exact absurd hc (by decide)
    · obtain ⟨p, hp, hc⟩ := List.mem_flatMap.1 hc
      exact ne_of_mem_text (hh.parts p hp) c hc
  have hhead : ∀ c ∈ h.text.toList.head?, Source.isMargin c = false := by
    rw [Head.text, String.toList_ofList, hname]
    rintro c ⟨⟩
    exact isMargin_of_isWord hd
  have hlast : ∀ c ∈ h.text.toList.getLast?, Source.isMargin c = false := by
    rw [Head.text, String.toList_ofList]
    exact isMargin_getLast_parts
      (fun c hc => hh.name.isMargin_of_mem (List.mem_of_getLast? hc)) hh.parts
  rw [Source.normalize, unifyBreaks_of_not_mem fun hc => (hchars _ hc).1 rfl,
    expandTabs_of_not_mem layout fun hc => (hchars _ hc).2 rfl, Character.trim_eq_self hhead hlast]

theorem tokenize_head (layout : Layout) {h : Head} (hh : h.Valid) :
    tokenize layout h.text =
      .ok (⟨.tag h.name, 1⟩ :: (h.parts.map fun p => ⟨p.token, 1⟩) ++ [⟨.eos, 1⟩]) := by
  have hs := at_ofSource 0 (normalize_head layout hh)
  rw [← List.append_nil h.text.toList] at hs
  have hend : ∀ c ∈ ([] : List Char).head?, isTagName c = false := nofun
  obtain ⟨s', hemits, hs'⟩ := emits_head hh hend hs
  rw [tokenize_eq_tape, Tape.result_eq_ok_iff, hemits.tape.1, hemits.tape.2, (tape_end hs').1,
    (tape_end hs').2]
  exact ⟨rfl, rfl⟩

/-! ### Reading a head -/

open Reading (Cursor Reads mark)

/-- The marks behind a tag belong to it. -/
theorem reads_tag_of_marks {marks ls : List Lexeme}
    (hmarks : ∀ l ∈ marks, Reading.isMark l.kind = true) (e : Element) {c : Cursor}
    (hc : On c (marks ++ ls)) :
    ∃ c', On c' ls ∧
      ∀ t c'', Reads (.tag (marks.foldl mark e)) c' t c'' → Reads (.tag e) c t c'' := by
  induction marks generalizing e c with
  | nil => exact ⟨c, hc, fun _ _ htag => htag⟩
  | cons l marks ih =>
    obtain ⟨hl, hmarks⟩ := List.forall_mem_cons.1 hmarks
    obtain ⟨c', hc', htag⟩ := ih hmarks (mark e l) hc.take
    have hnext : c.next = l := hc.next
    subst hnext
    exact ⟨c', hc', fun t c'' hreads => (Reads.tag_iff_mark hl).2 (htag t c'' hreads)⟩

theorem foldl_mark_parts (parts : List Part) (line : Nat) (e : Element) :
    (parts.map fun p => (⟨p.token, line⟩ : Lexeme)).foldl mark e =
      e.addAll (parts.map Part.settings) := by
  induction parts generalizing e with
  | nil => rfl
  | cons p parts ih =>
    have hmark : mark e ⟨p.token, line⟩ = e.add p.settings := by cases p <;> rfl
    rw [List.map_cons, List.foldl_cons, hmark, ih]
    rfl

/-- The template of a head is a document with one tag. -/
theorem parse_head (layout : Layout) {h : Head} (hh : h.Valid) :
    parse layout h.text = .ok ⟨1, [.tag ⟨h.element, none, none, ⟨1, []⟩⟩]⟩ := by
  obtain ⟨line, name, parts⟩ := h
  obtain rfl : line = 1 := hh.line
  -- The lexemes, the tag and the cursor are named, so that rewriting leaves them closed.
  obtain ⟨ls, hls⟩ : ∃ ls : List Lexeme,
      ls = (parts.map fun p => (⟨p.token, 1⟩ : Lexeme)) ++ after 0 1 [] := ⟨_, rfl⟩
  obtain ⟨e, he⟩ : ∃ e, e = Head.element ⟨1, name, parts⟩ := ⟨_, rfl⟩
  obtain ⟨c, hrest⟩ : ∃ c : Cursor, c = { rest := ⟨.tag name, 1⟩ :: ls } := ⟨_, rfl⟩
  have hc : On c.seen (⟨.tag name, 1⟩ :: ls) := by
    rw [hrest]
    exact ⟨rfl, rfl⟩
  -- All parts are marks of the tag, and nothing else is on its line or below it.
  have hmarks : ∀ l ∈ parts.map fun p => (⟨p.token, 1⟩ : Lexeme),
      Reading.isMark l.kind = true := by
    refine List.forall_mem_map.2 fun p _ => ?_
    cases p <;> rfl
  have hrungs : ∀ r ∈ ([] : List Rung).head?, r.depth ≤ 0 := nofun
  have htext : ∀ t ∈ (none : Option String), IsInlineText t := nofun
  obtain ⟨c₁, hc₁, htag⟩ := reads_tag_of_marks hmarks (.ofName name 1) (hls ▸ hc.take)
  obtain ⟨c₂, hreads, hc₂⟩ := reads_tag (readsBack (o := nil) trivial 1) hrungs htext e hc₁
  obtain ⟨c₃, hnodes, hc₃⟩ := readsBack (o := nil) trivial 0 c₂ 1 [] nofun hc₂
  have hline : e.line = 1 := by
    rw [he, Head.element, Element.addAll_eq, Element.line_setAttributes]
    rfl
  have hnode : Reads .node c.seen (some (.tag ⟨e, none, none, ⟨1, []⟩⟩)) c₂ := by
    refine .element (congrArg Lexeme.token hc.next) ?_
    rw [hline, he] at hreads
    rw [foldl_mark_parts] at htag
    rw [hc.next, he]
    exact htag _ _ hreads
  have heos : c₃.next.kind = .eos := by
    rw [hc₃.next]
    rfl
  have hparse := Reading.read_of_reads (.document (.cons hnode hnodes) heos)
  have hlexemes : tokenize layout (Head.text ⟨1, name, parts⟩) = .ok (⟨.tag name, 1⟩ :: ls) := by
    rw [tokenize_head layout hh, hls]
    rfl
  rw [parse_eq_ofLexemes hlexemes, Reading.ofLexemes, ← hrest, hparse, ← he, hrest]
  rfl

end Outline

end Offside
