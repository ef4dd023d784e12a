import Offside.Proofs.Attribute.Merge

/-!
# Setting attributes in groups

A tag is given its attributes in groups: a shorthand is a group of one setting, and an attribute
list is a group of as many settings as it has entries. A group is made into attributes before the
tag sees it, and there a key has one value only, the one it is set to last
(`Attributes.get?_ofList`). So `class` is collected from group to group and overwritten inside
a group.

* `Element.get?_class_addAll`: which names are collected.
* `Element.get?_addAll_of_ne`: any other key does not depend on how the settings are grouped.
* `Element.add_append`: a group can be divided in two, if `class` is set in one part only.
-/

set_option autoImplicit false

namespace Offside

open Attribute (Value Entry valuesOf classNames isEffective)
open Element (classNames?)

/-! ### Lists of entries as attributes -/

namespace Attributes

/-- A key has the value of its last entry. -/
theorem get?_ofList (es : List Entry) (key : String) :
    (ofList es).get? key = (valuesOf key es).getLast? := by
  have hrun : ∀ as : Attributes,
      (es.foldl (fun as entry => as.insert entry.1 entry.2) as).get? key =
        (valuesOf key es).getLast?.or (as.get? key) := by
    induction es with
    | nil => exact fun as => rfl
    | cons entry es ih =>
      intro as
      obtain ⟨other, value⟩ := entry
      rw [List.foldl_cons, ih, get?_insert]
      by_cases hkey : key = other
      · subst hkey
        rw [if_pos rfl, Attribute.valuesOf_cons_self, List.getLast?_cons]
        cases (valuesOf key es).getLast? <;> rfl
      · rw [if_neg hkey, Attribute.valuesOf_cons_of_ne (Ne.symm hkey)]
  exact (hrun empty).trans (Option.or_none)

/-- The keys are in the order of their first entries. -/
theorem keys_ofList (es : List Entry) : (ofList es).keys = (es.map Prod.fst).eraseDups := by
  have hrun : ∀ as : Attributes,
      (es.foldl (fun as entry => as.insert entry.1 entry.2) as).keys =
        (as.keys ++ es.map Prod.fst).eraseDups := by
    induction es with
    | nil =>
      intro as
      rw [List.map_nil, List.append_nil]
      exact (eraseDups_of_nodup as.nodup).symm
    | cons entry es ih =>
      intro as
      obtain ⟨key, value⟩ := entry
      rw [List.foldl_cons, ih, keys_insert, List.map_cons]
      split
      · next hmem => rw [eraseDups_append_cons_of_mem hmem]
      · rw [List.append_assoc, List.singleton_append]
  exact hrun empty

/-- Attributes that are made into entries have one value for each of their keys. -/
theorem valuesOf_entries (as : Attributes) (key : String) :
    valuesOf key as.entries = (as.get? key).toList := by
  obtain ⟨entries, hnodup⟩ := as
  show valuesOf key entries = (entries.lookup key).toList
  induction entries with
  | nil => rfl
  | cons entry entries ih =>
    obtain ⟨other, value⟩ := entry
    obtain ⟨hother, hothers⟩ := List.nodup_cons.1 hnodup
    by_cases hkey : key = other
    · subst hkey
      -- The key is not set again behind its entry.
      have hnone : valuesOf key entries = [] := by
        rw [ih hothers, Option.toList_eq_nil_iff, ← Option.not_isSome_iff_eq_none,
          ← Entries.mem_map_fst_iff]
        exact hother
      rw [Attribute.valuesOf_cons_self, hnone, List.lookup_cons_self]
      rfl
    · rw [Attribute.valuesOf_cons_of_ne (Ne.symm hkey), ih hothers, List.lookup_cons,
        beq_false_of_ne hkey]

end Attributes

/-! ### Groups of settings -/

namespace Attribute

/-- The names that a group of settings adds to `class`: those of its last value for it. -/
def keptNames (group : List Entry) : List String :=
  classNames (valuesOf "class" group).getLast?.toList

/-- Whether a group gives `class` a name and then another value, by which the name is lost. -/
def losesNames (group : List Entry) : Bool :=
  (valuesOf "class" group).dropLast.any (classNames? · |>.isSome)

/-- Whether a key of a group is set at a tag: `class` is if its last value gives names. -/
def reaches (group : List Entry) (key : String) : Bool :=
  key ≠ "class" || (valuesOf "class" group).getLast?.any (classNames? · |>.isSome)

/-- A group whose lists all hold something. -/
def NoEmptyList (group : List Entry) : Prop :=
  ∀ entry ∈ group, entry.2 ≠ .list []

theorem valuesOf_append (key : String) (xs ys : List Entry) :
    valuesOf key (xs ++ ys) = valuesOf key xs ++ valuesOf key ys := by
  rw [valuesOf, List.filter_append, List.map_append]
  rfl

theorem valuesOf_flatMap {α : Type} (key : String) (xs : List α) (f : α → List Entry) :
    valuesOf key (xs.flatMap f) = xs.flatMap fun x => valuesOf key (f x) := by
  rw [valuesOf, List.filter_flatMap, List.map_flatMap]
  rfl

theorem classNames_flatMap {α : Type} (xs : List α) (f : α → List Value) :
    classNames (xs.flatMap f) = xs.flatMap fun x => classNames (f x) :=
  List.flatMap_assoc

/-- The values that are not the last of their group are those whose names get lost. -/
theorem classNames_valuesOf (group : List Entry) :
    classNames (valuesOf "class" group) =
      classNames (valuesOf "class" group).dropLast ++ keptNames group := by
  rw [keptNames, classNames, classNames, classNames, ← List.flatMap_append]
  cases hlast : (valuesOf "class" group).getLast? with
  | none => rw [List.getLast?_eq_none_iff.1 hlast]; rfl
  | some value => rw [Option.toList_some, List.dropLast_append_getLast? value hlast]

/-- A value of a key is the value of an entry. -/
theorem NoEmptyList.of_mem_valuesOf {group : List Entry} (h : NoEmptyList group) {key : String} :
    ∀ value ∈ valuesOf key group, value ≠ .list [] := by
  intro value hvalue
  obtain ⟨entry, hentry, rfl⟩ := List.mem_map.1 hvalue
  exact h entry (List.mem_of_mem_filter hentry)

/-- Values without empty lists give no names if and only if none of them is a text or a list. -/
theorem classNames_eq_nil_iff {values : List Value} (h : ∀ value ∈ values, value ≠ .list []) :
    classNames values = [] ↔ values.any (classNames? · |>.isSome) = false := by
  rw [classNames, List.flatMap_eq_nil_iff, List.any_eq_false]
  refine forall₂_congr fun value hvalue => ?_
  have hne := h value hvalue
  cases value with
  | flag on => simp [classNames?]
  | text name => simp [classNames?]
  | list names =>
    have hnames : names ≠ [] := fun heq => hne (heq ▸ rfl)
    simp [classNames?, hnames]

/-- A group adds all its names if and only if it loses none. -/
theorem keptNames_eq_iff {group : List Entry} (h : NoEmptyList group) :
    keptNames group = classNames (valuesOf "class" group) ↔ losesNames group = false := by
  have hlost : ∀ value ∈ (valuesOf "class" group).dropLast, value ≠ .list [] :=
    fun value hvalue => h.of_mem_valuesOf value ((List.dropLast_subset _) hvalue)
  rw [losesNames, ← classNames_eq_nil_iff hlost, classNames_valuesOf, List.self_eq_append_left]

/-- A group divided in two keeps the names of both parts. The whole keeps the same names if and
only if there are none in the first part, or nothing for `class` in the second. -/
theorem keptNames_append_eq_iff (xs ys : List Entry) :
    keptNames xs ++ keptNames ys = keptNames (xs ++ ys) ↔
      keptNames xs = [] ∨ valuesOf "class" ys = [] := by
  by_cases hys : valuesOf "class" ys = []
  · have hnone : keptNames ys = [] := by rw [keptNames, hys]; rfl
    have hwhole : keptNames (xs ++ ys) = keptNames xs := by
      rw [keptNames, valuesOf_append, hys, List.append_nil]
      rfl
    simp [hys, hnone, hwhole]
  · have hwhole : keptNames (xs ++ ys) = keptNames ys := by
      rw [keptNames, valuesOf_append, List.getLast?_append_of_ne_nil _ hys]
      rfl
    simp [hys, hwhole]

/-- Names are kept group by group: all are kept if and only if no group loses one. -/
theorem flatMap_keptNames_eq_iff {groups : List (List Entry)}
    (h : ∀ group ∈ groups, NoEmptyList group) :
    groups.flatMap keptNames = classNames (valuesOf "class" groups.flatten) ↔
      ∀ group ∈ groups, losesNames group = false := by
  have hwritten : classNames (valuesOf "class" groups.flatten) =
      groups.flatMap fun group => classNames (valuesOf "class" group) := by
    rw [← List.flatMap_id, valuesOf_flatMap, classNames_flatMap]
    rfl
  have hle : ∀ group : List Entry,
      (keptNames group).length ≤ (classNames (valuesOf "class" group)).length := by
    intro group
    rw [classNames_valuesOf, List.length_append]
    exact Nat.le_add_left _ _
  rw [hwritten, flatMap_eq_iff_of_length_le hle]
  exact forall₂_congr fun group hgroup => keptNames_eq_iff (h group hgroup)

end Attribute

open Attribute

namespace Element

variable (e : Element)

/-- The tag with a group of settings, of which the last for each key counts. -/
def add (group : List Entry) : Element :=
  e.setAttributes (Attributes.ofList group).entries

/-- The tag with groups of settings, one after the other. -/
def addAll (groups : List (List Entry)) : Element :=
  groups.foldl add e

/-- Groups are settings one after the other, those of each group without what it overwrites. -/
theorem addAll_eq (groups : List (List Entry)) : e.addAll groups =
    e.setAttributes (groups.flatMap fun group => (Attributes.ofList group).entries) := by
  induction groups generalizing e with
  | nil => rfl
  | cons group groups ih =>
    rw [addAll, List.foldl_cons, ← addAll, ih, List.flatMap_cons, setAttributes, setAttributes,
      List.foldl_append]
    rfl

/-- Of a group, one value at most is left for a key. -/
theorem valuesOf_ofList (key : String) (group : List Entry) :
    valuesOf key (Attributes.ofList group).entries = (valuesOf key group).getLast?.toList := by
  rw [Attributes.valuesOf_entries, Attributes.get?_ofList]

/-- Any key but `class` has the value of its last setting, whichever group that is in. -/
theorem get?_addAll_of_ne (groups : List (List Entry)) {key : String} (h : key ≠ "class") :
    (e.addAll groups).attributes.get? key =
      (valuesOf key groups.flatten).getLast?.or (e.attributes.get? key) := by
  have hlast : ∀ values : List Value, values.getLast?.toList.getLast? = values.getLast? := by
    intro values
    cases values.getLast? <;> rfl
  rw [addAll_eq, get?_setAttributes_of_ne _ _ h, ← List.flatMap_id, valuesOf_flatMap,
    valuesOf_flatMap, List.getLast?_flatMap, List.getLast?_flatMap]
  simp only [valuesOf_ofList, hlast, id]

/-- Names are collected in `class` from all groups, in each from the last setting only. -/
theorem get?_class_addAll {groups : List (List Entry)} (h : ∀ group ∈ groups, NoEmptyList group) :
    (e.addAll groups).attributes.get? "class" =
      if groups.flatMap keptNames = [] then e.attributes.get? "class"
      else some (.list (e.collected ++ groups.flatMap keptNames)) := by
  have hvalues : valuesOf "class"
      (groups.flatMap fun group => (Attributes.ofList group).entries) =
      groups.flatMap fun group => (valuesOf "class" group).getLast?.toList := by
    rw [valuesOf_flatMap]
    simp only [valuesOf_ofList]
  have hnames : classNames (groups.flatMap fun group =>
      (valuesOf "class" group).getLast?.toList) = groups.flatMap keptNames :=
    classNames_flatMap _ _
  have hlists : ∀ value ∈ groups.flatMap fun group =>
      (valuesOf "class" group).getLast?.toList, value ≠ .list [] := by
    intro value hvalue
    obtain ⟨group, hgroup, hvalue⟩ := List.mem_flatMap.1 hvalue
    exact (h group hgroup).of_mem_valuesOf value
      (List.mem_of_getLast? (Option.mem_toList.1 hvalue))
  rw [addAll_eq, get?_class_setAttributes, hvalues, hnames]
  have hnone := classNames_eq_nil_iff hlists
  rw [hnames] at hnone
  by_cases hnil : groups.flatMap keptNames = []
  · rw [if_pos hnil, hnone.1 hnil]
    rfl
  · rw [if_neg hnil, if_pos]
    rwa [← Bool.not_eq_false, ← hnone]

/-! ### Dividing a group -/

/-- The order of keys when a group is added: its keys count from their first settings on. -/
theorem keys_add (group : List Entry) : (e.add group).attributes.keys =
    (e.attributes.keys ++ (group.map Prod.fst).filter (reaches group)).eraseDups := by
  have hvalue : ∀ entry ∈ (Attributes.ofList group).entries,
      isEffective entry = reaches group entry.1 := by
    rintro ⟨key, value⟩ hentry
    by_cases hkey : key = "class"
    · subst hkey
      have hmem : value ∈ valuesOf "class" (Attributes.ofList group).entries :=
        List.mem_map.2 ⟨_, List.mem_filter.2 ⟨hentry, by simp⟩, rfl⟩
      rw [valuesOf_ofList, Option.mem_toList] at hmem
      rw [isEffective, reaches, hmem]
      rfl
    · simp [isEffective, reaches, hkey]
  have hkeys : ((Attributes.ofList group).entries.filter isEffective).map Prod.fst =
      ((group.map Prod.fst).filter (reaches group)).eraseDups := by
    rw [List.filter_congr hvalue, eraseDups_filter, ← Attributes.keys_ofList,
      Attributes.keys, List.filter_map]
    rfl
  rw [add, keys_setAttributes, hkeys, eraseDups_append_eraseDups]

/-- Attributes are all that setting attributes changes. -/
theorem setAttributes_eq (calls : List Entry) :
    e.setAttributes calls = { e with attributes := (e.setAttributes calls).attributes } := by
  induction calls generalizing e with
  | nil => rfl
  | cons call calls ih =>
    have hcall : (e.setAttribute call.1 call.2).line = e.line ∧
        (e.setAttribute call.1 call.2).name = e.name := by
      unfold setAttribute
      split
      · split <;> exact ⟨rfl, rfl⟩
      · exact ⟨rfl, rfl⟩
    refine (ih (e.setAttribute call.1 call.2)).trans ?_
    rw [hcall.1, hcall.2]
    rfl

/-- A group can be divided in two, if `class` is set in one of the two only. -/
theorem add_append {xs ys : List Entry} (h : valuesOf "class" xs = [] ∨ valuesOf "class" ys = []) :
    (e.add xs).add ys = e.add (xs ++ ys) := by
  have hcalls : (e.add xs).add ys = e.addAll [xs, ys] := rfl
  -- With `class` on one side only, the last value for it is that of its side.
  have hlast : (valuesOf "class" xs).getLast?.toList ++ (valuesOf "class" ys).getLast?.toList =
      (valuesOf "class" (xs ++ ys)).getLast?.toList := by
    rw [valuesOf_append]
    rcases h with h | h <;> rw [h] <;> simp
  have hkeys : ((e.add xs).add ys).attributes.keys = (e.add (xs ++ ys)).attributes.keys := by
    have hreaches : ∀ group : List Entry,
        (valuesOf "class" group ≠ [] → valuesOf "class" (xs ++ ys) = valuesOf "class" group) →
        ∀ key ∈ group.map Prod.fst, reaches (xs ++ ys) key = reaches group key := by
      intro group hgroup key hkey
      by_cases hclass : key = "class"
      · subst hclass
        obtain ⟨entry, hentry, hfst⟩ := List.mem_map.1 hkey
        have hmem : entry ∈ group.filter (·.1 = "class") :=
          List.mem_filter.2 ⟨hentry, by simpa using hfst⟩
        rw [reaches, reaches, hgroup (List.ne_nil_of_mem (List.mem_map_of_mem hmem))]
      · simp [reaches, hclass]
    have hxs := hreaches xs fun hne => by
      rw [valuesOf_append, h.resolve_left hne, List.append_nil]
    have hys := hreaches ys fun hne => by
      rw [valuesOf_append, h.resolve_right hne, List.nil_append]
    rw [keys_add, keys_add, keys_add, eraseDups_eraseDups_append, List.map_append,
      List.filter_append, List.filter_congr hxs, List.filter_congr hys, List.append_assoc]
  have hget : ∀ key, ((e.add xs).add ys).attributes.get? key =
      (e.add (xs ++ ys)).attributes.get? key := by
    intro key
    by_cases hkey : key = "class"
    · subst hkey
      rw [hcalls, addAll_eq, add, get?_class_setAttributes, get?_class_setAttributes,
        valuesOf_ofList, ← hlast, valuesOf_flatMap]
      simp only [valuesOf_ofList, List.flatMap_cons, List.flatMap_nil, List.append_nil]
    · have hwhole : e.add (xs ++ ys) = e.addAll [xs ++ ys] := rfl
      rw [hcalls, hwhole, get?_addAll_of_ne _ _ hkey, get?_addAll_of_ne _ _ hkey]
      simp
  have hattributes := Attributes.ext_get? hkeys hget
  rw [hcalls, addAll_eq] at hattributes ⊢
  rw [setAttributes_eq, hattributes, add, ← setAttributes_eq]

/-- Groups in front of and behind a group do not matter for dividing it. -/
theorem addAll_divide (front back : List (List Entry)) {xs ys : List Entry}
    (h : valuesOf "class" xs = [] ∨ valuesOf "class" ys = []) :
    e.addAll (front ++ xs :: ys :: back) = e.addAll (front ++ (xs ++ ys) :: back) := by
  rw [addAll, addAll, List.foldl_append, List.foldl_append]
  exact congrArg (addAll · back) (add_append (e.addAll front) h)

end Element

end Offside
