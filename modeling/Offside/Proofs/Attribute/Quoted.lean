import Mathlib.Data.List.Nodup
import Offside.Proofs.Attribute.Merge
import Offside.Proofs.Attribute.Written

/-!
# Quoted values come back

A list of names with quoted values, one space between two entries, is the plainest way to write
attributes, and one would have every value come back as it was written. Two things are in the
way, and both come from taking the texts out of the whole list in three passes.

* A value may hold something that reads like a placeholder. Then it is taken for one if there is
  a text with its number.
* A single-quoted value may hold a double quote that no second one in it follows. Then that quote
  pairs with the next one in the list.

`parse_spoilt_values` has an example of each. `parse_joined` says that nothing else is in the
way: all names come back in order, and a value comes back exactly if nothing in it reads like a
placeholder with a recorded text.
-/

set_option autoImplicit false

namespace Offside.Attribute

open Character

/-- A name with a value between quotes. -/
structure Quoted where
  key : Name
  quote : Quote
  value : List Char
  value_ne_nil : value ≠ []
  quote_not_mem : quote.char ∉ value
  closed : Closed value

namespace Quoted

/-- The entry as it is written. -/
def text (v : Quoted) : List Char :=
  v.key.chars ++ '=' :: v.quote.char :: (v.value ++ [v.quote.char])

/-- The entry that should come back. -/
def entry (v : Quoted) : Entry :=
  (String.ofList v.key.chars, .text (String.ofList v.value))

/-- The value between its quotes. -/
def literal (v : Quoted) : Literal :=
  .quoted v.quote v.value

/-- Nothing in the value reads like a placeholder that has a text in `p`. -/
def Quiet (v : Quoted) (p : Placeholders) : Prop :=
  p.Quiet (cut (Mark.readText .interpolation) v.value)

instance (v : Quoted) (p : Placeholders) : Decidable (v.Quiet p) :=
  inferInstanceAs (Decidable (p.Quiet (cut (Mark.readText .interpolation) v.value)))

theorem space_ne_nil : [' '] ≠ [] := by decide

theorem isDelimiter_of_mem_space : ∀ c ∈ [' '], isDelimiter c = true := by decide

theorem isSeparator_equals : isSeparator '=' = true := rfl

/-- The spelling of the entry. -/
def written (v : Quoted) : Written :=
  ⟨[' '], v.key, some ⟨0, '=', 0, v.literal, isSeparator_equals⟩, space_ne_nil,
    isDelimiter_of_mem_space⟩

/-- The spelling reads as the entry is written. -/
theorem text_written (v : Quoted) : v.written.text = v.text :=
  List.append_assoc _ _ _

end Quoted

/-- Entries with one space between two of them. -/
def joined (vs : List Quoted) : List Char :=
  [' '].intercalate (vs.map Quoted.text)

/-- A list of such spellings is the joined list. -/
theorem listText_written (vs : List Quoted) : listText (vs.map Quoted.written) = joined vs := by
  have hjoined : ∀ (t : List Char) (ts : List (List Char)),
      [' '].intercalate (t :: ts) = t ++ ts.flatMap (' ' :: ·) := by
    intro t ts
    induction ts generalizing t with
    | nil => simp
    | cons t' ts ih => simp [List.intercalate_cons_cons, ih]
  cases vs with
  | nil => rfl
  | cons v vs =>
    rw [joined, List.map_cons, List.map_cons, hjoined, listText, v.text_written, List.flatMap_map,
      List.flatMap_map]
    refine congrArg (v.text ++ ·) (congrArg (vs.flatMap ·) (funext fun v' => ?_))
    rw [v'.text_written]
    rfl

namespace Quoted

variable {v : Quoted} {p : Placeholders} {e : Entry}

/-- An entry is decoded to its name, and to its value exactly if that is quiet. -/
theorem eq_entry_iff (hp : p.Marked) (h : v.written.Decodes p e) : e = v.entry ↔ v.Quiet p := by
  obtain ⟨hkey, value, hhidden, hvalue⟩ := h
  -- The list holds a placeholder for the value, which is restored before it is looked at.
  have hrestore := (hhidden.agree_restore hp).eq_iff
  have hraw : Value.ofRaw p value = (Literal.quoted v.quote (p.restore value)).value := by
    cases hhidden with
    | quoted hget hinterpolations hdoubles => exact ofRaw_holder p (isNumber_toDigits _)
  have htext : (Literal.quoted v.quote (p.restore value)).value = .text (String.ofList v.value) ↔
      p.restore value = v.value := by
    rw [Literal.value]
    by_cases hnil : p.restore value = []
    · rw [if_pos hnil, hnil]
      exact iff_of_false Value.noConfusion (Ne.symm v.value_ne_nil)
    · rw [if_neg hnil, Value.text.injEq, String.ofList_inj]
  have hname : e.1 = v.entry.1 := hkey
  rw [Prod.ext_iff, and_iff_right hname, hvalue, hraw]
  exact htext.trans hrestore

section

variable {vs : List Quoted} {es : List Entry}
  (h : List.Forall₂ (fun v e => v.written.Decodes p e) vs es)

include h

/-- The names that come back are those that were written. -/
theorem map_fst_eq : es.map Prod.fst = vs.map fun v => String.ofList v.key.chars := by
  induction h with
  | nil => rfl
  | cons hve _ ih => rw [List.map_cons, List.map_cons, ih, hve.1]; rfl

/-- With no name twice, a value is found under its name exactly if it is quiet. -/
theorem lookup_eq_iff (hp : p.Marked) (hnodup : (es.map Prod.fst).Nodup) :
    ∀ v ∈ vs, es.lookup v.entry.1 = some v.entry.2 ↔ v.Quiet p := by
  induction h with
  | nil => exact nofun
  | @cons v e vs es hve hrest ih =>
    obtain ⟨hfresh, hnodup⟩ := List.nodup_cons.1 hnodup
    have hname : e.1 = v.entry.1 := hve.1
    refine List.forall_mem_cons.2 ⟨?_, fun w hw => ?_⟩
    · have hlookup : (e :: es).lookup v.entry.1 = some e.2 := by
        rw [List.lookup_cons, hname, beq_self_eq_true]
      rw [hlookup, ← eq_entry_iff hp hve, Prod.ext_iff, and_iff_right hname, Option.some.injEq]
    · -- The name of a later entry is another one.
      have hmem : w.entry.1 ∈ es.map Prod.fst := by
        rw [map_fst_eq hrest]
        exact List.mem_map.2 ⟨w, hw, rfl⟩
      have hne : (w.entry.1 == e.1) = false := by
        rw [beq_eq_false_iff_ne]
        exact fun heq => hfresh (heq ▸ hmem)
      rw [List.lookup_cons, hne]
      exact ih hnodup w hw

/-- All entries come back exactly if all values are quiet. -/
theorem eq_map_entry_iff (hp : p.Marked) : es = vs.map entry ↔ ∀ v ∈ vs, v.Quiet p := by
  induction h with
  | nil => exact iff_of_true rfl nofun
  | cons hve _ ih =>
    rw [List.map_cons, List.cons.injEq, ih, eq_entry_iff hp hve, List.forall_mem_cons]

end

end Quoted

/-- The names of quoted values come back in order, and a value comes back as it was exactly if
nothing in it reads like a placeholder with a recorded text. -/
theorem parse_joined (vs : List Quoted) (hkeys : (vs.map fun v => v.key.chars).Nodup)
    (hopen : vs.Pairwise fun v w => v.literal.LeavesOpen → ¬w.literal.ShowsQuote) :
    let as := Attributes.parse (String.ofList (joined vs))
    let p := (Placeholders.substitute (joined vs)).1
    as.keys = vs.map (fun v => String.ofList v.key.chars) ∧
      (∀ v ∈ vs, as.get? (String.ofList v.key.chars) = some (.text (String.ofList v.value)) ↔
        v.Quiet p) ∧
      (as.entries = vs.map Quoted.entry ↔ ∀ v ∈ vs, v.Quiet p) := by
  intro as p
  have hsound : ∀ w ∈ vs.map Quoted.written, w.Sound := by
    refine List.forall_mem_map.2 fun v _ => ?_
    rintro s ⟨⟩
    exact ⟨v.quote_not_mem, v.closed⟩
  have hdecodes := decodes_listText (vs.map Quoted.written) hsound (List.pairwise_map.2 hopen)
  rw [listText_written, List.forall₂_map_left_iff] at hdecodes
  -- Names come back as they are, so no entry overwrites another one.
  have hnames := Quoted.map_fst_eq hdecodes
  have hnodup : ((entriesOf (String.ofList (joined vs))).map Prod.fst).Nodup := by
    rw [hnames]
    have hinjective : Function.Injective String.ofList := fun _ _ => String.ofList_injective
    simpa only [List.map_map, Function.comp_def] using List.Nodup.map hinjective hkeys
  have hentries : as.entries = entriesOf (String.ofList (joined vs)) :=
    Attributes.entries_ofList hnodup
  refine ⟨?_, ?_, ?_⟩
  · rw [Attributes.keys, hentries, hnames]
  · intro v hv
    rw [Attributes.get?, hentries]
    exact Quoted.lookup_eq_iff hdecodes (Placeholders.marked_substitute _) hnodup v hv
  · rw [hentries]
    exact Quoted.eq_map_entry_iff hdecodes (Placeholders.marked_substitute _)

/-- Values with delimiters, separators, quotes of the other kind and an interpolation in them, and
one with a brace that starts no placeholder with a text. -/
def mixedValues : List Quoted :=
  [⟨⟨"a".toList, by decide⟩, .double, "x, \x7b7\x7d it's".toList, by decide, by decide, by decide⟩,
    ⟨⟨"data-b".toList, by decide⟩, .single, "say \"hi\": k=v".toList, by decide, by decide,
      by decide⟩,
    ⟨⟨"c".toList, by decide⟩, .double, "#\x7bn + 1\x7d \x7b<".toList, by decide, by decide,
      by decide⟩]

/-- All three values come back, whatever is in them. -/
theorem parse_joined_mixed :
    (mixedValues.map fun v => v.key.chars).Nodup ∧
      (mixedValues.Pairwise fun v w => v.literal.LeavesOpen → ¬w.literal.ShowsQuote) ∧
      (Attributes.parse
        "a=\"x, \x7b7\x7d it's\" data-b='say \"hi\": k=v' c=\"#\x7bn + 1\x7d \x7b<\"").entries =
          [("a", .text "x, \x7b7\x7d it's"), ("data-b", .text "say \"hi\": k=v"),
            ("c", .text "#\x7bn + 1\x7d \x7b<")] := by
  have hkeys : (mixedValues.map fun v => v.key.chars).Nodup := by decide
  have hopen : mixedValues.Pairwise fun v w => v.literal.LeavesOpen → ¬w.literal.ShowsQuote := by
    decide +kernel
  obtain ⟨-, -, hentries⟩ := parse_joined mixedValues hkeys hopen
  exact ⟨hkeys, hopen, hentries.2 (by decide +kernel)⟩

/-- A value that reads like a placeholder for a text, here for itself, does not come back. Nor
does one that leaves a double quote open: it pairs with the next one, and the entry in between is
no longer seen. -/
theorem parse_spoilt_values :
    (Attributes.parse "a=\"\x7b<0>\x7d\"").entries = [("a", .text "\"\x7b<0>\x7d\"")] ∧
      (Attributes.parse "a='\"' b='\"'").entries = [("a", .text "\"' b='\"")] := by
  decide +kernel

end Offside.Attribute
