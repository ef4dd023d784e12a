import Offside.Proofs.Markup.Visiting

/-!
# Short names while rendering

Short names are expanded by a visitor of tags, right before each tag is rendered. This decides
under which name a tag is taken to be self-closing, and so what of the document is rendered at
all. Still it is the same to expand all short names beforehand, also where they are never
rendered, and to render without the visitor (`render_autotags`).

`Autotag.meanings` lists all short names. An expanded name is not short, so a tag is expanded
once however often the visitor is registered. Expanding a tag sets the implied attributes and
leaves the others alone (`Attributes.Sets`).
-/

set_option autoImplicit false

namespace Offside

/-! ### Short names -/

namespace Autotag

/-- All short names with the tag and the attributes they stand for. -/
def meanings : List (String × String × List (String × String)) :=
  shorthands ++ inputTypes.map fun type => ("input:" ++ type, "input", [("type", type)])

theorem lookup_inputs (name : String) (types : List String) :
    (types.map fun type => ("input:" ++ type, "input", [("type", type)])).lookup name =
      (types.find? (name = "input:" ++ ·)).map fun type => ("input", [("type", type)]) := by
  induction types with
  | nil => rfl
  | cons type types ih =>
    rw [List.map_cons, List.lookup_cons, List.find?_cons, ih]
    by_cases h : name = "input:" ++ type
    · rw [beq_iff_eq.2 h, decide_eq_true h]
      rfl
    · rw [beq_false_of_ne h, decide_eq_false h]

theorem meaning?_eq_lookup (name : String) : meaning? name = meanings.lookup name := by
  rw [meaning?, meanings, List.lookup_append, lookup_inputs]
  cases shorthands.lookup name <;> rfl

/-- No short name is listed twice. -/
theorem lookup_of_mem_meanings : ∀ m ∈ meanings, meanings.lookup m.1 = some m.2 := by
  decide +kernel

/-- What a short name stands for is not short. -/
theorem lookup_name_of_mem_meanings : ∀ m ∈ meanings, meanings.lookup m.2.1 = none := by
  decide +kernel

/-- No attribute is implied twice, and no class names are implied. -/
theorem implied_of_mem_meanings :
    ∀ m ∈ meanings, (m.2.2.map Prod.fst).Nodup ∧ "class" ∉ m.2.2.map Prod.fst := by
  decide +kernel

end Autotag

/-! ### Implied attributes -/

/-- Some attributes with more of them set: in place if the name was there, and behind the
others if it was not. -/
structure Attributes.Sets (before after : Attributes) (entries : List Attribute.Entry) : Prop where
  keys : after.keys = before.keys ++ (entries.map Prod.fst).filter (· ∉ before.keys)
  set : ∀ entry ∈ entries, after.get? entry.1 = some entry.2
  others : ∀ key ∉ entries.map Prod.fst, after.get? key = before.get? key

namespace Attributes

/-- Setting one attribute more, which is not set again. -/
theorem Sets.cons {before after : Attributes} {key : String} {value : Attribute.Value}
    {entries : List Attribute.Entry} (hkey : key ∉ entries.map Prod.fst)
    (h : (before.insert key value).Sets after entries) :
    before.Sets after ((key, value) :: entries) where
  keys := by
    rw [h.keys, keys_insert, List.map_cons, List.filter_cons]
    by_cases hmem : key ∈ before.keys
    · simp [hmem]
    · -- The name that is new now is none of the others.
      have hfilter : (entries.map Prod.fst).filter (· ∉ before.keys ++ [key]) =
          (entries.map Prod.fst).filter (· ∉ before.keys) := by
        refine List.filter_congr fun other hother => ?_
        have hne : other ≠ key := fun heq => hkey (heq ▸ hother)
        simp [hne]
      simp only [if_neg hmem, hfilter, decide_eq_true hmem, if_true]
      exact List.append_assoc _ _ _
  set := by
    intro entry hentry
    rcases List.mem_cons.1 hentry with rfl | hentry
    · rw [h.others key hkey, get?_insert, if_pos rfl]
    · exact h.set entry hentry
  others := by
    intro other hother
    rw [List.map_cons, List.mem_cons, not_or] at hother
    rw [h.others other hother.2, get?_insert, if_neg hother.1]

end Attributes

namespace Element

/-- Setting attributes other than `class`, each of them once. -/
theorem sets_setAttributes (e : Element) {entries : List Attribute.Entry}
    (hnodup : (entries.map Prod.fst).Nodup) (hclass : "class" ∉ entries.map Prod.fst) :
    e.attributes.Sets (e.setAttributes entries).attributes entries := by
  induction entries generalizing e with
  | nil => exact ⟨(List.append_nil _).symm, fun _ h => absurd h List.not_mem_nil, fun _ _ => rfl⟩
  | cons entry entries ih =>
    obtain ⟨key, value⟩ := entry
    rw [List.map_cons] at hnodup hclass
    have hkey : key ≠ "class" := fun h => hclass (h ▸ List.mem_cons_self)
    have hattributes : (e.setAttribute key value).attributes = e.attributes.insert key value := by
      rw [setAttribute, if_neg hkey]
    have hrest := ih (e.setAttribute key value) (List.nodup_cons.1 hnodup).2
      fun h => hclass (List.mem_cons_of_mem _ h)
    rw [hattributes] at hrest
    exact hrest.cons (List.nodup_cons.1 hnodup).1

theorem line_setAttributes (e : Element) (entries : List Attribute.Entry) :
    (e.setAttributes entries).line = e.line := by
  induction entries generalizing e with
  | nil => rfl
  | cons entry entries ih =>
    have hline : (e.setAttribute entry.1 entry.2).line = e.line := by
      unfold setAttribute
      split
      · split <;> rfl
      · rfl
    exact (ih _).trans hline

theorem isShort_iff (e : Element) : e.isShort = true ↔ e.name ∈ Autotag.meanings.map Prod.fst := by
  rw [isShort, Autotag.meaning?_eq_lookup, Entries.mem_map_fst_iff]

theorem expand_of_not_isShort {e : Element} (h : e.isShort = false) : e.expand = e := by
  rw [isShort, Option.isSome_eq_false_iff, Option.isNone_iff_eq_none] at h
  rw [expand, h]

theorem expand_of_mem {e : Element} {m : String × String × List (String × String)}
    (hm : m ∈ Autotag.meanings) (hname : e.name = m.1) :
    e.expand = { e.setAttributes (m.2.2.map fun (key, value) => (key, .text value)) with
      name := m.2.1 } := by
  rw [expand, Autotag.meaning?_eq_lookup, hname, Autotag.lookup_of_mem_meanings m hm]

/-- What a short name stands for is not short. -/
theorem isShort_expand (e : Element) : e.expand.isShort = false := by
  cases hshort : e.isShort with
  | false => rw [expand_of_not_isShort hshort, hshort]
  | true =>
    obtain ⟨m, hm, hname⟩ := List.mem_map.1 (e.isShort_iff.1 hshort)
    rw [expand_of_mem hm hname.symm, isShort, Autotag.meaning?_eq_lookup,
      Autotag.lookup_name_of_mem_meanings m hm]
    rfl

theorem expand_expand (e : Element) : e.expand.expand = e.expand :=
  expand_of_not_isShort e.isShort_expand

/-- A short name sets the attributes it implies. -/
theorem sets_expand {e : Element} {m : String × String × List (String × String)}
    (hm : m ∈ Autotag.meanings) (hname : e.name = m.1) :
    e.attributes.Sets e.expand.attributes (m.2.2.map fun (key, value) => (key, .text value)) := by
  obtain ⟨hnodup, hclass⟩ := Autotag.implied_of_mem_meanings m hm
  have hkeys : (m.2.2.map fun (key, value) => (key, Attribute.Value.text value)).map Prod.fst =
      m.2.2.map Prod.fst := List.map_map
  rw [expand_of_mem hm hname]
  exact e.sets_setAttributes (hkeys ▸ hnodup) (hkeys ▸ hclass)

end Element

/-! ### Expanding beforehand -/

/-- All short names expanded. -/
def Rewriting.autotags : Rewriting where
  tag t := t.expand

namespace Renderer

/-- The renderer after the visitor of short names has been registered `n` times. -/
def registerAutotags (r : Renderer) : Nat → Renderer
  | 0 => r
  | n + 1 => ((r.registerAutotags n).registerVisitor "tag" .autotags).2

theorem Unvisited.visitors_registerAutotags {r : Renderer} (hr : r.Unvisited) (n : Nat)
    (kind : Node.Kind) : (r.registerAutotags n).visitors kind =
      if kind = .tag then List.replicate n .autotags else [] := by
  induction n with
  | zero => rw [registerAutotags, hr, List.replicate_zero, ite_self]
  | succ n ih =>
    show (if kind = .tag then (r.registerAutotags n).visitors kind ++ [_] else _) = _
    rw [ih, List.replicate_succ']
    split <;> rfl

/-- An expanded tag stays as it is, however often it is visited. -/
theorem foldlM_autotags {t : Tag} (h : t.expand = t.toElement) (n : Nat) :
    (List.replicate n Visitor.autotags).foldlM (fun t (v : Visitor) => v.tag t) t = .ok t := by
  induction n with
  | zero => rfl
  | succ n ih =>
    have hvisit : Visitor.autotags.tag t = .ok t := by
      show Except.ok { t with toElement := t.expand } = .ok t
      rw [h]
      cases t
      rfl
    rw [List.replicate_succ, List.foldlM_cons, hvisit]
    exact ih

theorem Unvisited.revises_registerAutotags {r : Renderer} (hr : r.Unvisited) (n : Nat) :
    (r.registerAutotags (n + 1)).Revises .autotags where
  others := fun kind hkind _ => by rw [hr.visitors_registerAutotags, if_neg hkind]
  tag := by
    intro t
    rw [Renderer.visit, hr.visitors_registerAutotags, if_pos rfl, List.replicate_succ]
    -- The first visit expands the tag.
    let expanded : Tag := { t with toElement := t.expand }
    show Except.mapError _ (List.foldlM (fun t (v : Visitor) => v.tag t) expanded _) = _
    rw [foldlM_autotags t.toElement.expand_expand]
    rfl

/-- Expanding short names does not change which nodes go on with a conditional. -/
theorem settled_autotags (rows : List (List Node)) : Settled .autotags rows := by
  intro row _
  have hforesees : ∀ a b, Node.Foresees .autotags a b := by
    intro a b _
    cases b with
    | code code =>
      obtain ⟨statement, block⟩ := code
      rfl
    | _ => rfl
  exact (List.pairwise_of_forall hforesees).isChain

/-- It is the same to expand all short names beforehand as to expand them while rendering, with
the visitor registered once or more often. Expanding leaves no short name, changes nothing but
tags with a short name, and there the name and the implied attributes only. -/
theorem render_autotags {r : Renderer} (hr : r.Unvisited) :
    (∀ (n : Nat) (root : Block),
      (r.registerAutotags (n + 1)).render root = r.render (root.rewrite .autotags)) ∧
    (∀ e : Element, e.expand.isShort = false ∧ e.expand.expand = e.expand) ∧
    (∀ e : Element, e.name ∉ Autotag.meanings.map Prod.fst → e.isShort = false ∧ e.expand = e) ∧
    (∀ e : Element, ∀ m ∈ Autotag.meanings, e.name = m.1 →
      e.isShort = true ∧ e.expand.name = m.2.1 ∧ e.expand.line = e.line ∧
        e.attributes.Sets e.expand.attributes
          (m.2.2.map fun (key, value) => (key, .text value))) := by
  refine ⟨?_, fun e => ⟨e.isShort_expand, e.expand_expand⟩, ?_, ?_⟩
  · intro n root
    have hcodes : (r.registerAutotags (n + 1)).RevisesCodes .autotags root.codes := by
      intro c _
      obtain ⟨statement, block⟩ := c
      refine visit_of_no_visitors ?_ Visitor.code _
      rw [hr.visitors_registerAutotags, if_neg (by decide)]
    have hrewrite := (hr.revises_registerAutotags n).renderBlock_rewrite 0 root hcodes
      (settled_autotags _)
    have hbare : (r.registerAutotags (n + 1)).bare = r.bare := by
      induction n + 1 with
      | zero => rfl
      | succ n ih => exact ih
    rw [hbare, hr.bare_eq rfl rfl] at hrewrite
    exact hrewrite
  · intro e hname
    have hshort : e.isShort = false := Bool.eq_false_iff.2 fun h => hname (e.isShort_iff.1 h)
    exact ⟨hshort, Element.expand_of_not_isShort hshort⟩
  · intro e m hm hname
    have hexpand := Element.expand_of_mem hm hname
    refine ⟨e.isShort_iff.2 (hname ▸ List.mem_map_of_mem hm), ?_, ?_, Element.sets_expand hm hname⟩
    · rw [hexpand]
    · rw [hexpand]
      exact e.line_setAttributes _

/-- A page with a link that is self-closing by its expanded name only: what is below it could
not be rendered. -/
theorem render_autotags_page :
    let link : Element :=
      ⟨1, "link:css", .ofList [("type", .text "x"), ("href", .text "a.css")]⟩
    let page : Block := ⟨1,
      [.tag ⟨link, none, none, ⟨2, [.doctype ⟨2, "unknown"⟩]⟩⟩,
       .tag ⟨⟨3, "form:post", .ofList [("id", .text "f")]⟩, none, none,
        ⟨4, [.tag ⟨⟨4, "input:text", .ofList [("name", .text "q")]⟩, none, none, ⟨4, []⟩⟩]⟩⟩]⟩
    let r : Renderer := {}
    r.Unvisited ∧ r.render page = .error (.unknownDoctype "unknown") ∧
      (r.registerAutotags 2).render page =
        .ok ("<link type=\"text/css\" href=\"a.css\" rel=\"stylesheet\" />\n" ++
          "<form id=\"f\" method=\"POST\">\n  <input name=\"q\" type=\"text\" />\n</form>") ∧
      link.expand.attributes.keys = ["type", "href", "rel"] := by
  intro link page r
  have hr : r.Unvisited := fun _ => rfl
  obtain ⟨hrender, -, -, hlink⟩ := render_autotags hr
  have hmem : ("link:css", "link", [("rel", "stylesheet"), ("type", "text/css")]) ∈
      Autotag.meanings := by decide +kernel
  obtain ⟨-, -, -, hsets⟩ := hlink link _ hmem rfl
  refine ⟨hr, ?_, (hrender 1 page).trans ?_, hsets.keys.trans ?_⟩
  · exact render_of_attempt 4 (by decide +kernel)
  · exact render_of_attempt 4 (by decide +kernel)
  · decide +kernel

end Renderer

end Offside
