import Offside.Document.Basic
import Offside.Proofs.General

/-!
# Setting attributes one after the other

What a tag comes to have when its attributes are set in a run of calls, whatever their keys
and values are. Three rules meet in `Element.setAttribute`: `id` is there from the start,
`class` collects names and ignores switches, and any other key keeps the value it was given
last. Each is first stated for one call and then for a run that starts at any tag.

* `Element.keys_setAttributes`: the keys are those there before, and then the keys of the
  calls in the order of their first effective setting.
* `Element.get?_setAttributes_of_ne` and `Element.get?_class_setAttributes`: what is found
  under a key depends on the values for that key only.
* `Element.setAttributes_merge`: the law for a new tag.
-/

set_option autoImplicit false

namespace Offside

open Attribute (Value Entry)

/-! ### Attributes by their keys and values -/

namespace Attributes

/-- Entries with distinct keys are determined by the order of the keys and by what is found
under each. By induction on both lists: the first key leads to the first value, and is on
neither tail. -/
theorem entries_ext {as bs : List Entry} (has : (as.map Prod.fst).Nodup)
    (hkeys : as.map Prod.fst = bs.map Prod.fst) (hget : ∀ key, as.lookup key = bs.lookup key) :
    as = bs := by
  induction as generalizing bs with
  | nil => exact (List.map_eq_nil_iff.1 hkeys.symm).symm
  | cons a as ih =>
    cases bs with
    | nil => cases hkeys
    | cons b bs =>
      obtain ⟨k, v⟩ := a
      obtain ⟨k', v'⟩ := b
      obtain ⟨rfl, htail⟩ := List.cons.inj hkeys
      obtain ⟨hk, hnodup⟩ := List.nodup_cons.1 has
      have hv : v = v' := by simpa using hget k
      -- The first key is on neither tail, and all others are found there.
      have hnone : ∀ {cs : List Entry}, k ∉ cs.map Prod.fst → cs.lookup k = none := by
        intro cs hcs
        rw [Entries.mem_map_fst_iff] at hcs
        exact Option.not_isSome_iff_eq_none.1 hcs
      have hrest : ∀ key, as.lookup key = bs.lookup key := by
        intro key
        by_cases hkey : key = k
        · rw [hkey, hnone hk, hnone (htail ▸ hk)]
        · have hkey : (key == k) = false := beq_false_of_ne hkey
          simpa only [List.lookup_cons, hkey] using hget key
      rw [hv, ih hnodup htail hrest]

/-- Attributes are told apart by the order of their keys and by what is found under each. -/
theorem ext_get? {as bs : Attributes} (hkeys : as.keys = bs.keys)
    (hget : ∀ key, as.get? key = bs.get? key) : as = bs := by
  obtain ⟨entries, nodup⟩ := as
  obtain ⟨entries', nodup'⟩ := bs
  obtain rfl : entries = entries' := entries_ext nodup hkeys hget
  rfl

/-- Entries with distinct keys are kept as they are. -/
theorem entries_ofList {es : List Entry} (h : (es.map Prod.fst).Nodup) :
    (ofList es).entries = es := by
  have hrun : ∀ as : Attributes, ((as.entries ++ es).map Prod.fst).Nodup →
      (es.foldl (fun as e => as.insert e.1 e.2) as).entries = as.entries ++ es := by
    clear h
    induction es with
    | nil => exact fun as _ => (List.append_nil _).symm
    | cons e es ih =>
      intro as hnodup
      obtain ⟨key, value⟩ := e
      have hkey : key ∉ as.entries.map Prod.fst := by
        rw [List.map_append, List.nodup_append] at hnodup
        exact fun hmem => hnodup.2.2 key hmem key List.mem_cons_self rfl
      have hset : (as.insert key value).entries = as.entries ++ [(key, value)] :=
        Entries.set_of_not_mem hkey value
      rw [List.foldl_cons, ih, hset, List.append_assoc, List.singleton_append]
      rwa [hset, List.append_assoc, List.singleton_append]
  exact hrun empty h

end Attributes

/-! ### Runs of calls -/

namespace Attribute

/-- The values that a run of calls gives for a key, in order. -/
def valuesOf (key : String) (calls : List Entry) : List Value :=
  (calls.filter (·.1 = key)).map Prod.snd

/-- Whether a call has an effect: a switch for `class` has none. -/
def isEffective (call : Entry) : Bool :=
  call.1 ≠ "class" || (Element.classNames? call.2).isSome

/-- The keys that a run of calls sets, in the order of their first effective setting. -/
def firstSettings (calls : List Entry) : List String :=
  ((calls.filter isEffective).map Prod.fst).eraseDups

/-- The names that some values add to `class`. -/
def classNames (values : List Value) : List String :=
  values.flatMap fun value => (Element.classNames? value).getD []

theorem classNames_cons (value : Value) (values : List Value) :
    classNames (value :: values) = (Element.classNames? value).getD [] ++ classNames values :=
  rfl

theorem valuesOf_cons_self (key : String) (value : Value) (calls : List Entry) :
    valuesOf key ((key, value) :: calls) = value :: valuesOf key calls := by
  simp [valuesOf]

theorem valuesOf_cons_of_ne {key other : String} (h : other ≠ key) (value : Value)
    (calls : List Entry) : valuesOf key ((other, value) :: calls) = valuesOf key calls := by
  simp [valuesOf, h]

end Attribute

open Attribute

namespace Element

variable (e : Element) (calls : List Entry)

/-- The names that a tag has collected in `class`. -/
def collected : List String :=
  match e.attributes.get? "class" with
  | some (.list names) => names
  | _ => []

/-! ### One call -/

/-- Any key but `class` is set to the value. -/
theorem setAttribute_of_ne {key : String} (h : key ≠ "class") (value : Value) :
    (e.setAttribute key value).attributes = e.attributes.insert key value := by
  rw [setAttribute, if_neg h]

/-- A value that gives names adds them to those collected. -/
theorem setAttribute_class {value : Value} {names : List String}
    (h : classNames? value = some names) : (e.setAttribute "class" value).attributes =
      e.attributes.insert "class" (.list (e.collected ++ names)) := by
  rw [setAttribute, if_pos rfl, h]
  rfl

/-- A switch for `class` changes nothing. -/
theorem setAttribute_of_not_isEffective {key : String} {value : Value}
    (h : isEffective (key, value) = false) : e.setAttribute key value = e := by
  obtain ⟨hkey, hvalue⟩ : key = "class" ∧ classNames? value = none := by
    simpa [isEffective] using h
  rw [setAttribute, if_pos hkey, hvalue]

/-- An effective call adds its key at the end, if the key is new. -/
theorem keys_setAttribute (key : String) (value : Value) :
    (e.setAttribute key value).attributes.keys =
      if isEffective (key, value) ∧ key ∉ e.attributes.keys then e.attributes.keys ++ [key]
      else e.attributes.keys := by
  cases heffective : isEffective (key, value) with
  | false => rw [e.setAttribute_of_not_isEffective heffective, if_neg (by simp)]
  | true =>
    have hinsert : ∃ value', (e.setAttribute key value).attributes =
        e.attributes.insert key value' := by
      by_cases hkey : key = "class"
      · subst hkey
        obtain ⟨names, hnames⟩ : ∃ names, classNames? value = some names := by
          simpa [isEffective, Option.isSome_iff_exists] using heffective
        exact ⟨_, e.setAttribute_class hnames⟩
      · exact ⟨_, e.setAttribute_of_ne hkey value⟩
    obtain ⟨value', hinsert⟩ := hinsert
    rw [hinsert, Attributes.keys_insert]
    by_cases hmem : key ∈ e.attributes.keys <;> simp [hmem]

/-- A call leaves the other keys alone. -/
theorem get?_setAttribute_of_ne {key other : String} (h : other ≠ key) (value : Value) :
    (e.setAttribute key value).attributes.get? other = e.attributes.get? other := by
  by_cases hkey : key = "class"
  · subst hkey
    cases hnames : classNames? value with
    | none => rw [e.setAttribute_of_not_isEffective (by simp [isEffective, hnames])]
    | some names => rw [e.setAttribute_class hnames, Attributes.get?_insert, if_neg h]
  · rw [e.setAttribute_of_ne hkey, Attributes.get?_insert, if_neg h]

/-! ### Runs of calls -/

/-- The keys are those there before, and then the others in the order of their first effective
setting. -/
theorem keys_setAttributes : (e.setAttributes calls).attributes.keys =
    (e.attributes.keys ++ (calls.filter isEffective).map Prod.fst).eraseDups := by
  induction calls generalizing e with
  | nil =>
    rw [List.filter_nil, List.map_nil, List.append_nil]
    exact (eraseDups_of_nodup e.attributes.nodup).symm
  | cons call calls ih =>
    obtain ⟨key, value⟩ := call
    refine (ih (e.setAttribute key value)).trans ?_
    rw [keys_setAttribute]
    cases heffective : isEffective (key, value) with
    | false => rw [if_neg (by simp), List.filter_cons_of_neg (by simp [heffective])]
    | true =>
      rw [List.filter_cons_of_pos heffective, List.map_cons]
      by_cases hmem : key ∈ e.attributes.keys
      · rw [if_neg (by simp [hmem]), eraseDups_append_cons_of_mem hmem]
      · rw [if_pos ⟨rfl, hmem⟩, List.append_assoc, List.singleton_append]

/-- Any key but `class` has the value of its last setting. -/
theorem get?_setAttributes_of_ne {key : String} (h : key ≠ "class") :
    (e.setAttributes calls).attributes.get? key =
      (valuesOf key calls).getLast?.or (e.attributes.get? key) := by
  induction calls generalizing e with
  | nil => rfl
  | cons call calls ih =>
    obtain ⟨other, value⟩ := call
    refine (ih (e.setAttribute other value)).trans ?_
    by_cases hother : other = key
    · subst hother
      rw [e.setAttribute_of_ne h, Attributes.get?_insert, if_pos rfl, valuesOf_cons_self,
        List.getLast?_cons]
      cases (valuesOf other calls).getLast? <;> rfl
    · rw [e.get?_setAttribute_of_ne (Ne.symm hother), valuesOf_cons_of_ne hother]

/-- Names are collected in `class` in the order of the calls. -/
theorem get?_class_setAttributes : (e.setAttributes calls).attributes.get? "class" =
    if (valuesOf "class" calls).any (classNames? · |>.isSome) then
      some (.list (e.collected ++ classNames (valuesOf "class" calls)))
    else e.attributes.get? "class" := by
  induction calls generalizing e with
  | nil => rfl
  | cons call calls ih =>
    obtain ⟨key, value⟩ := call
    refine (ih (e.setAttribute key value)).trans ?_
    by_cases hkey : key = "class"
    · subst hkey
      rw [valuesOf_cons_self, List.any_cons, classNames_cons]
      cases hnames : classNames? value with
      | none => rw [e.setAttribute_of_not_isEffective (by simp [isEffective, hnames])]; rfl
      | some names =>
        -- What was collected before the call is now in front of the names of the call.
        have hget : (e.setAttribute "class" value).attributes.get? "class" =
            some (.list (e.collected ++ names)) := by
          rw [e.setAttribute_class hnames, Attributes.get?_insert, if_pos rfl]
        have hcollected : (e.setAttribute "class" value).collected = e.collected ++ names := by
          rw [collected, hget]
        rw [hget, hcollected, Option.isSome_some, Bool.true_or, if_pos rfl, Option.getD_some,
          List.append_assoc]
        split
        · rfl
        · next hnone =>
          -- The calls that follow add no names.
          have hnil : classNames (valuesOf "class" calls) = [] := by
            refine List.flatMap_eq_nil_iff.2 fun value' hvalue' => ?_
            have hvalue' : ¬(classNames? value').isSome := fun hsome =>
              hnone (List.any_eq_true.2 ⟨value', hvalue', hsome⟩)
            rw [Option.not_isSome_iff_eq_none.1 hvalue', Option.getD_none]
          rw [hnil, List.append_nil]
    · have hget := e.get?_setAttribute_of_ne (Ne.symm hkey) value
      have hcollected : (e.setAttribute key value).collected = e.collected := by
        rw [collected, hget, ← collected]
      rw [hget, hcollected, valuesOf_cons_of_ne hkey]

/-! ### New tags -/

/-- A new tag has `id` from the start, so it comes first wherever it is set. -/
theorem keys_setAttributes_ofName (name : String) (line : Nat) :
    ((ofName name line).setAttributes calls).attributes.keys =
      "id" :: (firstSettings calls).filter (· ≠ "id") := by
  have hfresh : (ofName name line).attributes.keys = ["id"] := rfl
  rw [keys_setAttributes, hfresh, List.singleton_append, List.eraseDups_cons, firstSettings,
    ← eraseDups_filter]
  have hne : (fun key : String => !key == "id") = fun key => decide (key ≠ "id") := by
    funext key
    by_cases hkey : key = "id" <;> simp [hkey]
  rw [hne]

/-- The law of merging attributes, for any run of calls on a new tag. The attribute `id` comes
first and all others in the order of their first effective setting; `id` is switched off until
it is set, any key but `class` has the value of its last setting, and `class` has all names that
it was given, in the order of the calls. So two runs come to the same attributes if they agree
on the values for each key and on the order of first settings. -/
theorem setAttributes_merge (name : String) (line : Nat) :
    let as := ((ofName name line).setAttributes calls).attributes
    as.keys = "id" :: (firstSettings calls).filter (· ≠ "id") ∧
    as.get? "id" = some ((valuesOf "id" calls).getLast?.getD (.flag false)) ∧
    (∀ key, key ≠ "id" → key ≠ "class" → as.get? key = (valuesOf key calls).getLast?) ∧
    as.get? "class" =
      (if (valuesOf "class" calls).any (classNames? · |>.isSome) then
        some (.list (classNames (valuesOf "class" calls))) else none) ∧
    ∀ (name' : String) (line' : Nat) (calls' : List Entry),
      (∀ key, valuesOf key calls' = valuesOf key calls) →
      firstSettings calls' = firstSettings calls →
      ((ofName name' line').setAttributes calls').attributes = as := by
  have hid : (ofName name line).attributes.get? "id" = some (.flag false) := rfl
  have hnone : ∀ key, key ≠ "id" → (ofName name line).attributes.get? key = none := by
    intro key hkey
    show (Attributes.empty.insert "id" _).get? key = none
    rw [Attributes.get?_insert, if_neg hkey]
    rfl
  refine ⟨keys_setAttributes_ofName calls name line, ?_, ?_, ?_, ?_⟩
  · rw [get?_setAttributes_of_ne _ _ (by decide), hid]
    cases (valuesOf "id" calls).getLast? <;> rfl
  · intro key hkey hclass
    rw [get?_setAttributes_of_ne _ _ hclass, hnone key hkey, Option.or_none]
  · rw [get?_class_setAttributes, hnone "class" (by decide)]
    rfl
  · intro name' line' calls' hvalues hfirst
    have hfresh : (ofName name' line').attributes = (ofName name line).attributes := rfl
    refine Attributes.ext_get? ?_ fun key => ?_
    · rw [keys_setAttributes_ofName, keys_setAttributes_ofName, hfirst]
    · by_cases hclass : key = "class"
      · subst hclass
        rw [get?_class_setAttributes, get?_class_setAttributes, hvalues, collected, collected,
          hfresh]
      · rw [get?_setAttributes_of_ne _ _ hclass, get?_setAttributes_of_ne _ _ hclass, hvalues,
          hfresh]

/-- Two runs that set three keys in different orders, one with a switch for `class` in front. -/
theorem setAttributes_merge_two_runs :
    let calls : List Entry :=
      [("class", .flag true), ("title", .text "t"), ("class", .text "b"), ("id", .text "x"),
        ("class", .list ["a", "c"]), ("title", .flag false)]
    let calls' : List Entry :=
      [("title", .text "t"), ("title", .flag false), ("class", .flag true), ("class", .text "b"),
        ("class", .list ["a", "c"]), ("id", .text "x")]
    ((ofName "p" 1).setAttributes calls').attributes =
        ((ofName "q" 2).setAttributes calls).attributes ∧
      ((ofName "q" 2).setAttributes calls).attributes.entries =
        [("id", .text "x"), ("title", .flag false), ("class", .list ["b", "a", "c"])] := by
  intro calls calls'
  have hvalues : ∀ key, valuesOf key calls' = valuesOf key calls := by
    intro key
    by_cases hclass : "class" = key
    · rw [← hclass]
      decide
    by_cases htitle : "title" = key
    · rw [← htitle]
      decide
    by_cases hid : "id" = key
    · rw [← hid]
      decide
    · simp [valuesOf, calls, calls', hclass, htitle, hid]
  obtain ⟨-, -, -, -, hsame⟩ := setAttributes_merge calls "q" 2
  exact ⟨hsame "p" 1 calls' hvalues (by decide), by decide⟩

end Element

end Offside
