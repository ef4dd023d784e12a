import Offside.Proofs.Outline.Headline

/-!
# The classes of a tag

A tag collects the names for `class` from all parts of its head. A shorthand gives its name, and an
attribute list gives the value of its last entry for `class`, unless that is a switch. So names
accumulate from part to part, and inside a list the last entry wins.

`Head.class_accumulates_between_parts` says when nothing is lost by this, and when dividing a list
in two leaves the tag as it is.
-/

set_option autoImplicit false

namespace Offside

open Attribute (Written valuesOf keptNames losesNames NoEmptyList entriesOf listText)

theorem Part.noEmptyList_settings (p : Part) : NoEmptyList p.settings := by
  cases p with
  | id name | className name => exact List.forall_mem_singleton.2 Attribute.Value.noConfusion
  | list raw s => exact Attributes.ne_list_of_mem_entriesOf raw

namespace Head

variable (h : Head)

/-- The names that a head adds to `class`. -/
def classNames : List String :=
  h.parts.flatMap fun p => keptNames p.settings

/-- The names that are written for `class` in a head. -/
def writtenNames : List String :=
  Attribute.classNames (valuesOf "class" (h.parts.flatMap Part.settings))

theorem get?_class_element : h.element.attributes.get? "class" =
    if h.classNames = [] then none else some (.list h.classNames) := by
  have hgroups : ∀ group ∈ h.parts.map Part.settings, NoEmptyList group :=
    List.forall_mem_map.2 fun p _ => p.noEmptyList_settings
  have hnames : (h.parts.map Part.settings).flatMap keptNames = h.classNames :=
    List.flatMap_map _ _ _
  rw [element, Element.get?_class_addAll _ hgroups, hnames]
  rfl

theorem classNames_eq_writtenNames_iff :
    h.classNames = h.writtenNames ↔ ∀ p ∈ h.parts, losesNames p.settings = false := by
  have hgroups : ∀ group ∈ h.parts.map Part.settings, NoEmptyList group :=
    List.forall_mem_map.2 fun p _ => p.noEmptyList_settings
  have hiff := Attribute.flatMap_keptNames_eq_iff hgroups
  rw [List.flatMap_map, ← List.flatMap_def, List.forall_mem_map] at hiff
  exact hiff

/-- Heads agree on `class` if and only if they add the same names to it. -/
theorem get?_class_element_eq_iff (h' : Head) :
    h'.element.attributes.get? "class" = h.element.attributes.get? "class" ↔
      h'.classNames = h.classNames := by
  rw [get?_class_element, get?_class_element]
  -- A tag without names has no `class` at all, rather than an empty list.
  by_cases hnil : h.classNames = [] <;> by_cases hnil' : h'.classNames = [] <;>
    simp [hnil, hnil', eq_comm]

/-! ### Dividing a list -/

/-- A list of a head, with the parts around it and its text divided between two entries. -/
structure Division where
  front : List Part
  raw : String
  spacing : Spacing
  back : List Part
  parts_eq : h.parts = front ++ .list raw spacing :: back
  left : String
  right : String
  entriesOf_raw : entriesOf raw = entriesOf left ++ entriesOf right

namespace Division

variable {h} (d : h.Division) (s t : Spacing)

/-- The head with two lists for the one that is divided. -/
def head : Head :=
  { h with parts := d.front ++ .list d.left s :: .list d.right t :: d.back }

theorem settings_eq : h.parts.map Part.settings =
    d.front.map Part.settings ++ (entriesOf d.left ++ entriesOf d.right) ::
      d.back.map Part.settings := by
  rw [d.parts_eq, List.map_append, List.map_cons, ← d.entriesOf_raw]
  rfl

theorem settings_head : (d.head s t).parts.map Part.settings =
    d.front.map Part.settings ++ entriesOf d.left :: entriesOf d.right ::
      d.back.map Part.settings := by
  rw [head, List.map_append]
  rfl

/-- Any key but `class` does not see the division. -/
theorem get?_head_of_ne {key : String} (hkey : key ≠ "class") :
    (d.head s t).element.attributes.get? key = h.element.attributes.get? key := by
  rw [element, element, Element.get?_addAll_of_ne _ _ hkey, Element.get?_addAll_of_ne _ _ hkey,
    d.settings_eq, d.settings_head]
  simp [head]

/-- The division shows in `class` if the left part gives names and the right part sets it again. -/
theorem get?_class_head_eq_iff :
    (d.head s t).element.attributes.get? "class" = h.element.attributes.get? "class" ↔
      keptNames (entriesOf d.left) = [] ∨ valuesOf "class" (entriesOf d.right) = [] := by
  have hnames : ∀ h : Head, h.classNames = (h.parts.map Part.settings).flatMap keptNames :=
    fun h => (List.flatMap_map _ _ _).symm
  -- The names of the parts around the list are the same on both sides, and cancel.
  rw [get?_class_element_eq_iff, ← Attribute.keptNames_append_eq_iff, hnames, hnames,
    d.settings_eq, d.settings_head, List.flatMap_append, List.flatMap_append,
    List.append_cancel_left_eq, List.flatMap_cons, List.flatMap_cons, List.flatMap_cons,
    ← List.append_assoc, List.append_cancel_right_eq]

theorem element_head (hclass : valuesOf "class" (entriesOf d.left) = [] ∨
    valuesOf "class" (entriesOf d.right) = []) : (d.head s t).element = h.element := by
  rw [element, element, d.settings_eq, d.settings_head, Element.addAll_divide _ _ _ hclass]
  rfl

/-- A list can be divided between any two entries, in all spellings. -/
theorem exists_of_listText {front back : List Part} {s : Spacing} {ws ws' : List Written}
    (hws : ∀ w ∈ ws ++ ws', w.Simple)
    (hparts : h.parts = front ++ .list (String.ofList (listText (ws ++ ws'))) s :: back) :
    ∃ d : h.Division, d.front = front ∧ d.back = back ∧
      d.left = String.ofList (listText ws) ∧ d.right = String.ofList (listText ws') :=
  ⟨⟨front, _, s, back, hparts, _, _, Attribute.entriesOf_listText_append hws⟩, rfl, rfl, rfl, rfl⟩

end Division

/-! ### The law of classes -/

/-- How `class` accumulates, for every head of a tag.

* Its value is the list of the names of all shorthands and, of each list, those of the last entry
  for `class`, in the order in which they are written. They are all the names that are written if
  and only if no list gives a name and then sets `class` again.
* Dividing a list in two, which can be done between any two entries, leaves all other attributes
  alone. It leaves `class` alone unless the first half gives it names and the second half sets it
  again, and it leaves the whole tag alone, with the order of its attributes, if at most one half
  sets `class`.
* The tag of a head is what its text is parsed to. In any template that is parsed, the tags are
  those of its heads, each in front of the tags inside it. -/
theorem class_accumulates_between_parts (layout : Layout) :
    (h.element.attributes.get? "class" =
      if h.classNames = [] then none else some (.list h.classNames)) ∧
    (h.classNames = h.writtenNames ↔ ∀ p ∈ h.parts, losesNames p.settings = false) ∧
    (∀ (d : h.Division) (s t : Spacing),
      (∀ key, key ≠ "class" →
        (d.head s t).element.attributes.get? key = h.element.attributes.get? key) ∧
      ((d.head s t).element.attributes.get? "class" = h.element.attributes.get? "class" ↔
        keptNames (entriesOf d.left) = [] ∨ valuesOf "class" (entriesOf d.right) = []) ∧
      (valuesOf "class" (entriesOf d.left) = [] ∨ valuesOf "class" (entriesOf d.right) = [] →
        (d.head s t).element = h.element)) ∧
    (∀ front back s ws ws', (∀ w ∈ ws ++ ws', w.Simple) →
      h.parts = front ++ .list (String.ofList (listText (ws ++ ws'))) s :: back →
      ∃ d : h.Division, d.front = front ∧ d.back = back ∧
        d.left = String.ofList (listText ws) ∧ d.right = String.ofList (listText ws')) ∧
    (h.Valid → parse layout h.text = .ok ⟨1, [.tag ⟨h.element, none, none, ⟨1, []⟩⟩]⟩) ∧
    ∀ source root ls, parse layout source = .ok root → tokenize layout source = .ok ls →
      root.elements = (headsOf false ls).map element := by
  refine ⟨h.get?_class_element, h.classNames_eq_writtenNames_iff, fun d s t => ?_,
    fun front back s ws ws' => Division.exists_of_listText, Outline.parse_head layout,
    fun source root ls => elements_of_parse⟩
  exact ⟨fun key => d.get?_head_of_ne s t, d.get?_class_head_eq_iff s t, d.element_head s t⟩

/-- Shorthands around a list that is divided in two, and tags inside each other. -/
theorem class_accumulates_between_parts_divided :
    let h : Head := ⟨1, "p",
      [.className "a", .list "class=\"b\", title='t'" ⟨1, 1, 0⟩, .className "c"]⟩
    let h' : Head := ⟨1, "p",
      [.className "a", .list "class=\"b\"", .list "title='t'" ⟨1, 0, 0⟩, .className "c"]⟩
    h.text = "p.a ( class=\"b\", title='t').c" ∧ h'.text = "p.a(class=\"b\") (title='t').c" ∧
    parse {} h.text = .ok ⟨1, [.tag ⟨h.element, none, none, ⟨1, []⟩⟩]⟩ ∧
    h.element.attributes.get? "class" = some (.list ["a", "b", "c"]) ∧
    h.classNames = h.writtenNames ∧ h'.element = h.element ∧
    ∃ root ls, parse {} "ul\n  p.a(class='b').c\n    .d x" = .ok root ∧
      tokenize {} "ul\n  p.a(class='b').c\n    .d x" = .ok ls ∧
      root.elements = (headsOf false ls).map element ∧
      (headsOf false ls).map (·.classNames) = [[], ["a", "b", "c"], ["d"]] := by
  intro h h'
  obtain ⟨hclass, hnames, hdivided, -, hparse, htags⟩ := class_accumulates_between_parts h {}
  have hvalid : h.Valid := ⟨rfl, by decide +kernel, by decide +kernel⟩
  have hentries : entriesOf "class=\"b\", title='t'" =
      entriesOf "class=\"b\"" ++ entriesOf "title='t'" := by decide +kernel
  have hright : valuesOf "class" (entriesOf "title='t'") = [] := by decide +kernel
  have hdivision := hdivided
    ⟨[.className "a"], _, ⟨1, 1, 0⟩, [.className "c"], rfl, _, _, hentries⟩ {} ⟨1, 0, 0⟩
  have hheads : (tokenize {} "ul\n  p.a(class='b').c\n    .d x").map
      (fun ls => (headsOf false ls).map (·.classNames)) = .ok [[], ["a", "b", "c"], ["d"]] := by
    decide +kernel
  refine ⟨by decide +kernel, by decide +kernel, hparse hvalid, ?_, ?_,
    hdivision.2.2 (.inr hright), ?_⟩
  · rw [hclass]
    decide +kernel
  · exact hnames.2 (by decide +kernel)
  · -- The document itself is too large to be written out here, so it is named by cases.
    have hok : (parse {} "ul\n  p.a(class='b').c\n    .d x").isOk = true := by decide +kernel
    cases hroot : parse {} "ul\n  p.a(class='b').c\n    .d x" with
    | error e =>
      rw [hroot] at hok
      cases hok
    | ok root =>
      cases hls : tokenize {} "ul\n  p.a(class='b').c\n    .d x" with
      | error e =>
        rw [hls] at hheads
        cases hheads
      | ok ls =>
        rw [hls] at hheads
        exact ⟨root, ls, rfl, rfl, htags _ root ls hroot hls, Except.ok.inj hheads⟩

/-- Inside a list, a later entry for `class` overwrites the one in front and keeps its place. -/
theorem class_overwritten_inside_list :
    let attributesOf := fun source => (parse {} source).map
      fun root => root.elements.map (·.attributes.entries)
    attributesOf "p(class=\"x\" class=\"y\")" =
        .ok [[("id", .flag false), ("class", .list ["y"])]] ∧
      attributesOf "p(class=\"x\")(class=\"y\")" =
        .ok [[("id", .flag false), ("class", .list ["x", "y"])]] ∧
      attributesOf "p(class b class=\"y\")" =
        .ok [[("id", .flag false), ("class", .list ["y"]), ("b", .flag true)]] ∧
      attributesOf "p(class b)(class=\"y\")" =
        .ok [[("id", .flag false), ("b", .flag true), ("class", .list ["y"])]] := by
  decide +kernel

end Head

end Offside
