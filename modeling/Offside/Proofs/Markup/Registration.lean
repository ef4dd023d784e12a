import Offside.Proofs.Markup.Faults
import Offside.Proofs.Markup.Shown

/-!
# Registering extensions

Extensions are registered one after the other, and each time this may fail. A `Registration` is
one such call, and `registerAll` makes some of them, going on behind those that fail.

What a call can do is said once (`Renderer.apply_cases`): visitors are added behind those of
their kind, and filters behind the others, all of a call or those in front of the first alias
that is taken. So aliases stay unique, and a filter that is registered stays
(`keeps_registerAll`, `filter?_registerAll`).

The order in which filters were registered is not seen. Rendering looks a filter up by its
alias, so it comes to the same with other filters that are found under the same aliases
(`render_of_same_filters`), and what it came to it still comes to with more of them
(`render_of_free`). The main result is `registrations_safe_in_any_order`.
-/

set_option autoImplicit false

namespace Offside

/-- With each key once, what is looked up is what is there. -/
theorem Entries.lookup_eq_some_iff {α β : Type} [BEq α] [LawfulBEq α] {entries : List (α × β)}
    (h : (entries.map Prod.fst).Nodup) {key : α} {value : β} :
    entries.lookup key = some value ↔ (key, value) ∈ entries := by
  induction entries with
  | nil => simp
  | cons first entries ih =>
    obtain ⟨hfirst, hothers⟩ := List.nodup_cons.1 h
    rw [List.lookup_cons, List.mem_cons]
    by_cases hkey : key = first.1
    · subst hkey
      -- The key of the first entry is none of the others.
      have hnot : (first.1, value) ∉ entries := fun hmem =>
        hfirst (List.mem_map.2 ⟨_, hmem, rfl⟩)
      simp [hnot, Prod.ext_iff, eq_comm]
    · have hne : (key, value) ≠ first := fun heq => hkey (congrArg Prod.fst heq)
      rw [beq_false_of_ne hkey]
      simp [hne, ih hothers]

theorem Node.Kind.ofName?_eq_some_iff {name : String} {kind : Node.Kind} :
    Node.Kind.ofName? name = some kind ↔ kind.name = name := by
  constructor
  · intro h
    simpa using List.find?_some h
  · rintro rfl
    cases kind <;> rfl

/-- A call that registers extensions. -/
inductive Registration where
  | visitor (kind : String) (visitor : Visitor)
  | filter (name : String) (filter : TextFilter)
  | builtinFilters

namespace Registration

/-- The visitors of a kind that a call is to add. -/
def visitorsOf (kind : Node.Kind) : Registration → List Visitor
  | visitor name v => if Node.Kind.ofName? name = some kind then [v] else []
  | _ => []

/-- The filters that a call is to add, by alias. -/
def filters : Registration → List (String × TextFilter)
  | visitor _ _ => []
  | filter name f => [(name, f)]
  | builtinFilters => TextFilter.builtin

/-- Makes a call. -/
def apply (r : Renderer) : Registration → Except RegistrationError Unit × Renderer
  | visitor kind v => r.registerVisitor kind v
  | filter name f => r.registerFilter name f
  | builtinFilters => r.registerBuiltinFilters

theorem nodup_filters (c : Registration) : (c.filters.map Prod.fst).Nodup := by
  cases c with
  | visitor kind v => exact List.nodup_nil
  | filter name f =>
    show [name].Nodup
    simp
  | builtinFilters =>
    show (["style", "php", "javascript", "cdata"] : List String).Nodup
    decide

end Registration

namespace Renderer

open Registration

/-- Makes calls one after the other, whether they fail or not. -/
def registerAll (r : Renderer) :
    List Registration → List (Except RegistrationError Unit) × Renderer
  | [] => ([], r)
  | c :: calls =>
    let rest := (c.apply r).2.registerAll calls
    ((c.apply r).1 :: rest.1, rest.2)

/-- The renderer with other filters. -/
def withFilters (r : Renderer) (filters : List (String × TextFilter)) : Renderer :=
  { r with filters }

variable {r : Renderer} {name : String} {f : TextFilter}

/-! ### Single calls -/

theorem registerFilter_of_taken (h : r.filter? name = some f) (g : TextFilter) :
    r.registerFilter name g = (.error (.duplicateFilter name), r) := by
  simp only [registerFilter, h]

theorem registerFilter_of_free (h : r.filter? name = none) (g : TextFilter) :
    r.registerFilter name g = (.ok (), r.withFilters (r.filters ++ [(name, g)])) := by
  simp only [registerFilter, h, withFilters]

theorem filter?_append (r : Renderer) (added : List (String × TextFilter)) (name : String) :
    (r.withFilters (r.filters ++ added)).filter? name =
      (r.filter? name).or (added.lookup name) :=
  List.lookup_append

/-- Filters are added all, or up to the first whose alias is taken. -/
theorem registerFilters_cases (r : Renderer) {fs : List (String × TextFilter)}
    (hnodup : (fs.map Prod.fst).Nodup) :
    ((∀ entry ∈ fs, r.filter? entry.1 = none) ∧
      r.registerFilters fs = (.ok (), r.withFilters (r.filters ++ fs))) ∨
    ∃ before entry after, fs = before ++ entry :: after ∧
      (∀ other ∈ before, r.filter? other.1 = none) ∧ (r.filter? entry.1).isSome = true ∧
      r.registerFilters fs =
        (.error (.duplicateFilter entry.1), r.withFilters (r.filters ++ before)) := by
  induction fs generalizing r with
  | nil =>
    left
    exact ⟨List.forall_mem_nil _, by simp [registerFilters, withFilters]⟩
  | cons first fs ih =>
    obtain ⟨name, f⟩ := first
    obtain ⟨hname, hnodup⟩ := List.nodup_cons.1 hnodup
    cases hfirst : r.filter? name with
    | some g =>
      -- The first alias is taken, so nothing is added.
      right
      refine ⟨[], (name, f), fs, rfl, List.forall_mem_nil _, by simp [hfirst], ?_⟩
      rw [registerFilters, registerFilter_of_taken hfirst]
      simp [withFilters]
    | none =>
      -- The other aliases are as free as before, since none of them is the first one.
      have hothers : ∀ entry ∈ fs,
          (r.withFilters (r.filters ++ [(name, f)])).filter? entry.1 = r.filter? entry.1 := by
        intro entry hentry
        have hne : entry.1 ≠ name := by
          rintro rfl
          exact hname (List.mem_map.2 ⟨entry, hentry, rfl⟩)
        have hnone : [(name, f)].lookup entry.1 = none := by
          rw [List.lookup_cons, beq_eq_false_iff_ne.2 hne, List.lookup_nil]
        rw [filter?_append, hnone, Option.or_none]
      have hstep : r.registerFilters ((name, f) :: fs) =
          (r.withFilters (r.filters ++ [(name, f)])).registerFilters fs := by
        rw [registerFilters, registerFilter_of_free hfirst]
      rw [hstep]
      obtain ⟨hfree, hall⟩ | ⟨before, entry, after, rfl, hfree, htaken, hsome⟩ :=
        ih (r.withFilters (r.filters ++ [(name, f)])) hnodup
      · left
        refine ⟨List.forall_mem_cons.2 ⟨hfirst, fun entry hentry => ?_⟩, ?_⟩
        · rw [← hothers entry hentry]
          exact hfree entry hentry
        · rw [hall]
          simp [withFilters]
      · right
        refine ⟨(name, f) :: before, entry, after, rfl, ?_, ?_, ?_⟩
        · refine List.forall_mem_cons.2 ⟨hfirst, fun other hother => ?_⟩
          rw [← hothers other (List.mem_append_left _ hother)]
          exact hfree other hother
        · rw [← hothers entry (by simp)]
          exact htaken
        · rw [hsome]
          simp [withFilters]

/-- The renderer with one more visitor of a kind, behind the others. -/
def withVisitor (r : Renderer) (kind : Node.Kind) (v : Visitor) : Renderer :=
  { r with visitors := fun k => if k = kind then r.visitors k ++ [v] else r.visitors k }

theorem registerVisitor_eq (r : Renderer) (kind : String) (v : Visitor) :
    r.registerVisitor kind v =
      match Node.Kind.ofName? kind with
      | none => (.error (.unknownNodeKind kind), r)
      | some kind => (.ok (), r.withVisitor kind v) :=
  rfl

/-- What a call does. If it succeeds, it adds its visitors and its filters behind those that are
there. If it fails, it adds the filters in front of the first one whose alias is taken, which
are none for a single filter and for a visitor. -/
theorem apply_cases (r : Renderer) (c : Registration) :
    (∃ r', c.apply r = (.ok (), r') ∧ r'.layout = r.layout ∧
      r'.filters = r.filters ++ c.filters ∧ (∀ entry ∈ c.filters, r.filter? entry.1 = none) ∧
      ∀ kind, r'.visitors kind = r.visitors kind ++ c.visitorsOf kind) ∨
    ∃ e before after, c.apply r = (.error e, r.withFilters (r.filters ++ before)) ∧
      c.filters = before ++ after ∧ ∀ entry ∈ before, r.filter? entry.1 = none := by
  -- A call that fails and adds nothing.
  have hnothing : ∀ {e : RegistrationError}, c.apply r = (.error e, r) →
      ∃ e before after, c.apply r = (.error e, r.withFilters (r.filters ++ before)) ∧
        c.filters = before ++ after ∧ ∀ entry ∈ before, r.filter? entry.1 = none := by
    intro e h
    refine ⟨e, [], c.filters, ?_, rfl, List.forall_mem_nil _⟩
    rw [h, List.append_nil]
    rfl
  cases c with
  | visitor name v =>
    cases hkind : Node.Kind.ofName? name with
    | none =>
      right
      exact hnothing (e := .unknownNodeKind name) (by simp [apply, registerVisitor_eq, hkind])
    | some kind =>
      left
      refine ⟨r.withVisitor kind v, by simp [apply, registerVisitor_eq, hkind], rfl, ?_,
        List.forall_mem_nil _, fun k => ?_⟩
      · exact (List.append_nil _).symm
      · by_cases hk : k = kind
        · simp [withVisitor, visitorsOf, hkind, hk]
        · simp [withVisitor, visitorsOf, hkind, hk, Ne.symm hk]
  | filter name f =>
    cases hname : r.filter? name with
    | none =>
      left
      refine ⟨_, registerFilter_of_free hname f, rfl, rfl, ?_, fun k => (List.append_nil _).symm⟩
      exact List.forall_mem_singleton.2 hname
    | some g =>
      right
      exact hnothing (registerFilter_of_taken hname f)
  | builtinFilters =>
    obtain ⟨hfree, hall⟩ | ⟨before, entry, after, heq, hfree, -, hsome⟩ :=
      r.registerFilters_cases (nodup_filters builtinFilters)
    · exact .inl ⟨_, hall, rfl, rfl, hfree, fun k => (List.append_nil _).symm⟩
    · exact .inr ⟨_, before, entry :: after, hsome, heq, hfree⟩

/-! ### Sequences of calls -/

/-- No alias is registered twice. -/
def Unambiguous (r : Renderer) : Prop :=
  (r.filters.map Prod.fst).Nodup

/-- Aliases stay unique where filters with free aliases are added. -/
theorem Unambiguous.append (h : r.Unambiguous) {added : List (String × TextFilter)}
    (hadded : (added.map Prod.fst).Nodup) (hfree : ∀ entry ∈ added, r.filter? entry.1 = none) :
    ((r.filters ++ added).map Prod.fst).Nodup := by
  rw [List.map_append]
  refine List.nodup_append.2 ⟨h, hadded, ?_⟩
  rintro name hname _ hother rfl
  obtain ⟨entry, hentry, rfl⟩ := List.mem_map.1 hother
  have htaken : (r.filter? entry.1).isSome = true := Entries.mem_map_fst_iff.1 hname
  rw [hfree entry hentry] at htaken
  cases htaken

/-- What one call keeps: the layout, the filters that are there, and that aliases are unique. -/
theorem keeps_apply (r : Renderer) (c : Registration) :
    (c.apply r).2.layout = r.layout ∧ r.filters <+: (c.apply r).2.filters ∧
      (r.Unambiguous → (c.apply r).2.Unambiguous) := by
  have hnodup := c.nodup_filters
  obtain ⟨r', happly, hlayout, hfilters, hfree, -⟩ | ⟨e, before, after, happly, hbefore, hfree⟩ :=
    r.apply_cases c
  · rw [happly]
    refine ⟨hlayout, hfilters ▸ List.prefix_append _ _, fun h => ?_⟩
    show (r'.filters.map Prod.fst).Nodup
    rw [hfilters]
    exact h.append hnodup hfree
  · rw [happly]
    refine ⟨rfl, List.prefix_append _ _, fun h => h.append ?_ hfree⟩
    rw [hbefore, List.map_append] at hnodup
    exact (List.nodup_append.1 hnodup).1

/-- Any sequence of calls keeps what one call keeps. -/
theorem keeps_registerAll (r : Renderer) (calls : List Registration) :
    (r.registerAll calls).2.layout = r.layout ∧ r.filters <+: (r.registerAll calls).2.filters ∧
      (r.Unambiguous → (r.registerAll calls).2.Unambiguous) := by
  induction calls generalizing r with
  | nil => exact ⟨rfl, List.prefix_rfl, id⟩
  | cons c calls ih =>
    obtain ⟨hlayout, hfilters, hunambiguous⟩ := r.keeps_apply c
    obtain ⟨hlayout', hfilters', hunambiguous'⟩ := ih (c.apply r).2
    exact ⟨hlayout'.trans hlayout, hfilters.trans hfilters', hunambiguous' ∘ hunambiguous⟩

/-- A filter that is registered stays, whatever is registered behind it. -/
theorem filter?_registerAll (h : r.filter? name = some f) (calls : List Registration) :
    (r.registerAll calls).2.filter? name = some f := by
  obtain ⟨-, ⟨added, hadded⟩, -⟩ := r.keeps_registerAll calls
  show (r.registerAll calls).2.filters.lookup name = some f
  rw [← hadded, List.lookup_append, show r.filters.lookup name = some f from h]
  rfl

/-- Calls that all succeed add what they are to add, in order. -/
theorem registerAll_of_ok (r : Renderer) (calls : List Registration)
    (h : ∀ result ∈ (r.registerAll calls).1, result = .ok ()) :
    (r.registerAll calls).2.filters = r.filters ++ calls.flatMap Registration.filters ∧
      ∀ kind, (r.registerAll calls).2.visitors kind =
        r.visitors kind ++ calls.flatMap (visitorsOf kind) := by
  induction calls generalizing r with
  | nil => exact ⟨(List.append_nil _).symm, fun kind => (List.append_nil _).symm⟩
  | cons c calls ih =>
    obtain ⟨hfirst, hothers⟩ : (c.apply r).1 = .ok () ∧
        ∀ result ∈ ((c.apply r).2.registerAll calls).1, result = .ok () :=
      List.forall_mem_cons.1 h
    obtain ⟨hfilters, hvisitors⟩ := ih (c.apply r).2 hothers
    obtain ⟨r', happly, -, hfilters', -, hvisitors'⟩ | ⟨e, before, after, happly, -, -⟩ :=
      r.apply_cases c
    · rw [happly] at hfilters hvisitors
      constructor
      · show (((c.apply r).2.registerAll calls).2).filters = _
        rw [happly, hfilters, hfilters', List.flatMap_cons, List.append_assoc]
      · intro kind
        show (((c.apply r).2.registerAll calls).2).visitors kind = _
        rw [happly, hvisitors, hvisitors', List.flatMap_cons, List.append_assoc]
    · -- The call would have failed.
      rw [happly] at hfirst
      cases hfirst

/-! ### Rendering with other filters -/

/-- What is rendered is what rendering comes to when it ends. -/
theorem render_eq_ok_iff {root : Block} {markup : String} :
    r.render root = .ok markup ↔ r.rendering 0 false (.group root) = some (.ok markup) := by
  show (r.rendering 0 false (.group root)).getD (.error .endless) = .ok markup ↔ _
  cases r.rendering 0 false (.group root) <;> simp

/-- One more filter under a free alias does not matter to what is rendered already. -/
theorem render_of_free (hname : r.filter? name = none) {root : Block} {markup : String}
    (h : r.render root = .ok markup) : (r.registerFilter name f).2.render root = .ok markup := by
  rw [registerFilter_of_free hname]
  let extended := r.withFilters (r.filters ++ [(name, f)])
  -- Lookups that succeed find the same filter. The others fail, and so would rendering.
  have hfind : ∀ other, (Rendering.extending fun _ => False).rel (liftM (r.findFilter other))
      (liftM (extended.findFilter other)) := by
    intro other out hcounts hout
    cases hother : r.filter? other with
    | none =>
      rw [findFilter, hother] at hout
      exact absurd (Option.some.inj hout).symm fun h => hcounts _ h
    | some g =>
      have hkept : extended.filter? other = some g := by
        rw [filter?_append, hother]
        rfl
      rw [findFilter, hother] at hout
      rw [findFilter, hkept]
      exact hout
  refine render_eq_ok_iff.2 ?_
  exact rendering_extends (r := r) (s := extended) _ rfl rfl hfind nofun (render_eq_ok_iff.1 h)

/-- Renderers that differ in the order of their filters render alike. -/
theorem render_of_same_filters {r' : Renderer} (hlayout : r.layout = r'.layout)
    (hvisitors : ∀ kind, r.visitors kind = r'.visitors kind) (hr : r.Unambiguous)
    (hr' : r'.Unambiguous) (hfilters : ∀ entry, entry ∈ r.filters ↔ entry ∈ r'.filters)
    (root : Block) : r.render root = r'.render root := by
  have hlookup : ∀ name, r.filter? name = r'.filter? name := by
    intro name
    refine Option.ext fun f => ?_
    show r.filters.lookup name = some f ↔ r'.filters.lookup name = some f
    rw [Entries.lookup_eq_some_iff hr, Entries.lookup_eq_some_iff hr', hfilters]
  refine render_congr hlayout (funext hvisitors) (fun name => ?_) root
  rw [findFilter, findFilter, hlookup name]

/-! ### Any sequence of calls -/

/-- What holds of a renderer after any calls. -/
structure Registers (r : Renderer) : Prop where
  unambiguous : r.Unambiguous
  /-- A visitor runs behind the others of its kind. If there is no such kind, nothing changes. -/
  visitor : ∀ kind v,
    (∃ k : Node.Kind, k.name = kind ∧ r.registerVisitor kind v = (.ok (), r.withVisitor k v)) ∨
    (∀ k : Node.Kind, k.name ≠ kind) ∧
      r.registerVisitor kind v = (.error (.unknownNodeKind kind), r)
  /-- A filter is added under a free alias. If the alias is taken, nothing changes. -/
  filter : ∀ name f,
    (r.filter? name = none ∧
      r.registerFilter name f = (.ok (), r.withFilters (r.filters ++ [(name, f)]))) ∨
    (r.filter? name).isSome = true ∧ r.registerFilter name f = (.error (.duplicateFilter name), r)
  /-- The filters of the language are added all, or those in front of the first one whose alias
  is taken. -/
  builtin :
    ((∀ entry ∈ TextFilter.builtin, r.filter? entry.1 = none) ∧
      r.registerBuiltinFilters = (.ok (), r.withFilters (r.filters ++ TextFilter.builtin))) ∨
    ∃ before entry after, TextFilter.builtin = before ++ entry :: after ∧
      (∀ other ∈ before, r.filter? other.1 = none) ∧ (r.filter? entry.1).isSome = true ∧
      r.registerBuiltinFilters =
        (.error (.duplicateFilter entry.1), r.withFilters (r.filters ++ before))
  /-- What is registered first under an alias is found there after all other calls. -/
  first : ∀ name f calls, r.filter? name = none →
    ((r.registerFilter name f).2.registerAll calls).2.filter? name = some f
  kept : ∀ name f calls, r.filter? name = some f →
    (r.registerAll calls).2.filter? name = some f
  /-- One more filter does not change what was rendered without it. -/
  fresh : ∀ name f root markup, r.filter? name = none → r.render root = .ok markup →
    (r.registerFilter name f).2.render root = .ok markup

theorem Unambiguous.registers (h : r.Unambiguous) : r.Registers where
  unambiguous := h
  visitor := by
    intro kind v
    rw [registerVisitor_eq]
    cases hkind : Node.Kind.ofName? kind with
    | some k => exact .inl ⟨k, Node.Kind.ofName?_eq_some_iff.1 hkind, rfl⟩
    | none =>
      right
      refine ⟨fun k hk => ?_, rfl⟩
      rw [Node.Kind.ofName?_eq_some_iff.2 hk] at hkind
      cases hkind
  filter := by
    intro name f
    cases hname : r.filter? name with
    | none => exact .inl ⟨rfl, registerFilter_of_free hname f⟩
    | some g => exact .inr ⟨rfl, registerFilter_of_taken hname f⟩
  builtin := r.registerFilters_cases (Registration.nodup_filters .builtinFilters)
  first := by
    intro name f calls hname
    refine filter?_registerAll ?_ calls
    rw [registerFilter_of_free hname, filter?_append, hname, Option.none_or,
      List.lookup_cons_self]
  kept := fun name f calls hname => filter?_registerAll hname calls
  fresh := fun name f root markup hname h => render_of_free hname h

/-- Whatever calls were made, registering is safe: it fails only where a kind is unknown or an
alias is taken, and then it adds nothing, or the filters in front of the alias that is taken. And
the order of calls is seen only among the visitors of a kind: if all calls of two sequences
succeed, with the same visitors of each kind in the same order and with the same filters under
the same aliases, then both renderers render every document alike. -/
theorem registrations_safe_in_any_order (layout : Layout) :
    let new : Renderer := { layout }
    (∀ calls, (new.registerAll calls).2.Registers) ∧
    ∀ calls calls',
      (∀ result ∈ (new.registerAll calls).1, result = .ok ()) →
      (∀ result ∈ (new.registerAll calls').1, result = .ok ()) →
      (∀ kind, calls.flatMap (visitorsOf kind) = calls'.flatMap (visitorsOf kind)) →
      (∀ entry, entry ∈ calls.flatMap Registration.filters ↔
        entry ∈ calls'.flatMap Registration.filters) →
      ∀ root, (new.registerAll calls).2.render root = (new.registerAll calls').2.render root := by
  intro new
  have hnew : new.Unambiguous := List.nodup_nil
  have hunambiguous : ∀ calls, (new.registerAll calls).2.Unambiguous := fun calls =>
    (new.keeps_registerAll calls).2.2 hnew
  refine ⟨fun calls => (hunambiguous calls).registers, ?_⟩
  intro calls calls' hok hok' hvisitors hfilters root
  obtain ⟨hfilters₁, hvisitors₁⟩ := new.registerAll_of_ok calls hok
  obtain ⟨hfilters₂, hvisitors₂⟩ := new.registerAll_of_ok calls' hok'
  refine render_of_same_filters ?_ ?_ (hunambiguous calls) (hunambiguous calls') ?_ root
  · rw [(new.keeps_registerAll calls).1, (new.keeps_registerAll calls').1]
  · intro kind
    rw [hvisitors₁, hvisitors₂, hvisitors kind]
  · intro entry
    rw [hfilters₁, hfilters₂]
    exact hfilters entry

/-- Filters of the language around another one, and visitors of two kinds in turns. Both visitors
of code put a sign behind its expression, so their order is seen; the one of tags puts a text
inside of them. An unknown kind and an alias that is taken hold up nothing that comes behind
them. -/
theorem registrations_safe_around_builtin :
    let new : Renderer := { layout := {} }
    let raw := TextFilter.wrap "<pre>" "</pre>"
    let sign (text : String) : Visitor :=
      { code := fun c => .ok { c with expression := c.expression ++ text } }
    let title : Visitor :=
      { tag := fun t => .ok { t with children := ⟨t.line, [.text ⟨t.line, [t.name]⟩]⟩ } }
    let calls := [.visitor "tag" title, .builtinFilters, .visitor "code" (sign "!"),
      .visitor "code" (sign "?"), .filter "raw" raw]
    let calls' := [.filter "raw" raw, .visitor "code" (sign "!"), .visitor "tag" title,
      .visitor "code" (sign "?"), .builtinFilters]
    let swapped := [.visitor "code" (sign "?"), .visitor "tag" title, .visitor "code" (sign "!")]
    let clash := [.filter "javascript" raw, .visitor "span" title, .builtinFilters]
    let page : Block := ⟨1, [.tag ⟨.ofName "p" 1, none,
      some ⟨{ line := 1, expression := "$a", buffered := true }, none⟩, ⟨1, []⟩⟩]⟩
    (∀ root, (new.registerAll calls).2.render root = (new.registerAll calls').2.render root) ∧
    (new.registerAll calls).2.render page = .ok "<p>\n  <?= $a!? ?>\n  p\n</p>" ∧
    (new.registerAll swapped).2.render page = .ok "<p>\n  <?= $a?! ?>\n  p\n</p>" ∧
    (new.registerAll clash).2.Registers ∧
    (new.registerAll clash).1 =
      [.ok (), .error (.unknownNodeKind "span"), .error (.duplicateFilter "javascript")] ∧
    (new.registerAll clash).2.filters.map Prod.fst = ["javascript", "style", "php"] := by
  intro new raw sign title calls calls' swapped clash page
  obtain ⟨hsafe, horder⟩ := registrations_safe_in_any_order {}
  have hok : (new.registerAll calls).1 = List.replicate 5 (.ok ()) := by decide +kernel
  have hok' : (new.registerAll calls').1 = List.replicate 5 (.ok ()) := by decide +kernel
  refine ⟨horder calls calls' ?_ ?_ ?_ ?_, ?_, ?_, hsafe clash, ?_, ?_⟩
  · simp [new, hok]
  · simp [new, hok']
  · intro kind
    cases kind <;> rfl
  · intro entry
    show entry ∈ TextFilter.builtin ++ [("raw", raw)] ↔ entry ∈ ("raw", raw) :: TextFilter.builtin
    rw [List.mem_append, List.mem_singleton, List.mem_cons, or_comm]
  · exact render_of_attempt 4 (by decide +kernel)
  · exact render_of_attempt 4 (by decide +kernel)
  · decide +kernel
  · decide +kernel

end Renderer

end Offside
