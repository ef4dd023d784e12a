import Mathlib.Data.List.Induction
import Offside.CommandLine
import Offside.Configuration.Plain
import Offside.Proofs.General

/-!
# Layers resolve key by key

How settings are merged is up to the library. Two things are asked of it: a later source overrides
the earlier ones, key by key (`Library.LaterWins`), and overrides win over all sources
(`Library.OverridesWin`). Each of them is about one source or one override more. By induction over
the layers, a value that is configured is that of the last override, or else of the last file that
sets it, or else the built-in one (`Configuration.load_resolves_layers`).

The plain library does what is asked for, as long as sections are tables and values are plain
(`Library.laterWins_plain`, `Library.overridesWin_plain`).
-/

set_option autoImplicit false

namespace Offside.Configuration

/-! ### The last word -/

section Last

variable {α β : Type}

/-- What the last member of a list says, of those that say something. -/
def last? (f : α → Option β) (as : List α) : Option β :=
  (as.filterMap f).getLast?

theorem last?_concat (f : α → Option β) (as : List α) (a : α) :
    last? f (as ++ [a]) = (f a).or (last? f as) := by
  rw [last?, List.filterMap_append, List.getLast?_append, last?]
  cases h : f a <;> simp [h]

theorem last?_cons (f : α → Option β) (a : α) (as : List α) :
    last? f (a :: as) = (last? f as).or (f a) := by
  cases h : f a with
  | none => rw [last?, List.filterMap_cons_none h, Option.or_none, last?]
  | some b =>
    rw [last?, List.filterMap_cons_some h, List.getLast?_cons, last?]
    cases (as.filterMap f).getLast? <;> rfl

/-- The last word is the word of some member. -/
theorem exists_of_last?_eq_some {f : α → Option β} {as : List α} {b : β}
    (h : last? f as = some b) : ∃ a ∈ as, f a = some b :=
  List.mem_filterMap.1 (List.mem_of_getLast? h)

end Last

/-! ### What is asked of a library -/

namespace Library

variable (L : Library)

/-- What a source sets a field to: what is configured by this source alone. -/
def sets? (f : Field) (s : L.Settings) : Option L.Value :=
  match L.get (L.build [s] []) f with
  | .ok value => value
  | .error _ => none

/-- What an override sets a field to: its value, if its key is that of the field. -/
def overrides? (f : Field) (o : L.Key × L.Value) : Option L.Value :=
  if L.key? f.key = some o.1 then some o.2 else none

/-- Later sources override earlier ones, key by key. Take the sources up to some place and one
source more. A field that the source sets has its value then. A field that it does not set is
as it was. -/
def LaterWins (sources : List L.Settings) : Prop :=
  ∀ front s, front ≠ [] → front ++ [s] <+: sources → ∀ f,
    L.get (L.build (front ++ [s]) []) f =
      (L.sets? f s).elim (L.get (L.build front []) f) fun value => .ok (some value)

/-- Overrides win over all sources. Take the overrides up to some place and one override more. The
field it is for has its value then, whatever the sources are. Other fields are as they were. -/
def OverridesWin (sources : List L.Settings) (overrides : List (L.Key × L.Value)) : Prop :=
  ∀ front o, front ++ [o] <+: overrides → ∀ f,
    L.get (L.build sources (front ++ [o])) f =
      (L.overrides? f o).elim (L.get (L.build sources front) f) fun value => .ok (some value)

variable {L} {first : L.Settings} {rest sources : List L.Settings}
  {overrides : List (L.Key × L.Value)}

/-- Of many sources the last one that sets a field decides. If none of those behind the first one
does, it is as the first one leaves it. -/
theorem LaterWins.get_build (h : L.LaterWins (first :: rest)) (f : Field) :
    L.get (L.build (first :: rest) []) f =
      (last? (L.sets? f) rest).elim (L.get (L.build [first] []) f)
        fun value => .ok (some value) := by
  induction rest using List.reverseRecOn with
  | nil => rfl
  | append_singleton rest s ih =>
    rw [← List.cons_append] at h ⊢
    have hrest : L.LaterWins (first :: rest) := fun front t hne hpre =>
      h front t hne (hpre.trans (List.prefix_append _ _))
    rw [h _ s (List.cons_ne_nil _ _) (List.prefix_refl _), ih hrest, last?_concat]
    cases L.sets? f s <;> rfl

/-- Of many overrides the last one for a field decides. If there is none, the sources do. -/
theorem OverridesWin.get_build (h : L.OverridesWin sources overrides) (f : Field) :
    L.get (L.build sources overrides) f =
      (last? (L.overrides? f) overrides).elim (L.get (L.build sources []) f)
        fun value => .ok (some value) := by
  induction overrides using List.reverseRecOn with
  | nil => rfl
  | append_singleton overrides o ih =>
    have hrest : L.OverridesWin sources overrides := fun front p hpre =>
      h front p (hpre.trans (List.prefix_append _ _))
    rw [h _ o (List.prefix_refl _), ih hrest, last?_concat]
    cases L.overrides? f o <;> rfl

end Library

/-! ### The plain library -/

namespace Tree

/-- A setting that can be read as a value. -/
def isPlain : Tree → Bool
  | nothing | list _ | table _ => false
  | _ => true

/-- A setting that has others by name. -/
def isTable : Tree → Bool
  | table _ => true
  | _ => false

theorem eq_table_of_isTable {s : Tree} (h : s.isTable = true) : s = table s.entries := by
  cases s <;> first | rfl | cases h

theorem get?_insert (s : Tree) (name other : String) (value : Tree) :
    (s.insert name value).get? other = if other = name then some value else s.get? other := by
  show (Entries.set name value s.entries).lookup other = _
  rw [Entries.lookup_set]
  simp only [beq_iff_eq]
  rfl

theorem assign_of_isPlain {value : Tree} (h : value.isPlain = true) (s : Tree) (name : String) :
    s.assign name value = s.insert name value := by
  cases value <;> first | rfl | cases h

/-- Giving a name a value leaves the other names as they are. -/
theorem get?_assign_of_ne {s value : Tree} {name other : String} (h : other ≠ name) :
    (s.assign name value).get? other = s.get? other := by
  cases value <;> rw [assign, get?_insert, if_neg h] <;> exact nofun

/-- What an entry says on a name. -/
def named? (name : String) (entry : String × Tree) : Option Tree :=
  if lower entry.1 = name then some entry.2 else none

theorem named?_eq_some_iff {name : String} {entry : String × Tree} {value : Tree} :
    named? name entry = some value ↔ lower entry.1 = name ∧ entry.2 = value := by
  simp [named?]

/-- A name that is given plain values is merged to the last of them. -/
theorem get?_mergeAll {name : String} {entries : List (String × Tree)}
    (h : ∀ entry ∈ entries, lower entry.1 = name → entry.2.isPlain = true) (s : Tree) :
    (s.mergeAll entries).get? name = (last? (named? name) entries).or (s.get? name) := by
  induction entries generalizing s with
  | nil =>
    rw [mergeAll]
    rfl
  | cons entry entries ih =>
    rw [mergeAll, ih fun other hother => h other (List.mem_cons_of_mem _ hother), last?_cons,
      Option.or_assoc]
    congr 1
    by_cases hname : lower entry.1 = name
    · rw [assign_of_isPlain (h entry List.mem_cons_self hname), get?_insert, if_pos hname.symm,
        named?, if_pos hname]
      rfl
    · rw [get?_assign_of_ne (Ne.symm hname), named?, if_neg hname, Option.none_or]

/-- Merging into a table gives a table. -/
theorem isTable_mergeAll {s : Tree} (h : s.isTable = true) (entries : List (String × Tree)) :
    (s.mergeAll entries).isTable = true := by
  induction entries generalizing s with
  | nil => rwa [mergeAll]
  | cons entry entries ih =>
    rw [mergeAll]
    refine ih ?_
    cases entry.2 <;> rw [assign] <;> first | rfl | exact nofun

/-! #### Fields of a tree -/

section

variable (f : Field)

/-- The setting in the section of a field with its name. -/
def lookup (s : Tree) : Option Tree :=
  ((s.get? f.group).getD (table [])).get? f.name

/-- Entries that are as is usual for a field: its section is a table, and its values are plain. -/
def IsUsual (s : Tree) : Prop :=
  ∀ entry ∈ s.entries, lower entry.1 = f.group → entry.2.isTable = true ∧
    ∀ inner ∈ entry.2.entries, lower inner.1 = f.name → inner.2.isPlain = true

instance (s : Tree) : Decidable (IsUsual f s) := by
  unfold IsUsual
  infer_instance

/-- What a source says on a field. -/
def says? (s : Tree) : Option Tree :=
  last? (fun entry => (named? f.group entry).bind fun group =>
    last? (named? f.name) group.entries) s.entries

/-- What can be seen of a field once usual sources are merged: its section is a table if it is
there, and its value is plain if it is set. -/
structure IsSettled (s : Tree) : Prop where
  section_ : ∀ group, s.get? f.group = some group → group.isTable = true
  value : ∀ value, lookup f s = some value → value.isPlain = true

variable {f} {s t : Tree}

theorem isSettled_empty : IsSettled f (table []) :=
  ⟨nofun, nofun⟩

theorem IsSettled.field_eq (h : IsSettled f s) : s.field f = .ok (lookup f s) := by
  have hvalue := h.value
  rw [lookup] at hvalue ⊢
  rw [field]
  cases hgroup : s.get? f.group with
  | none => rfl
  | some group =>
    rw [eq_table_of_isTable (h.section_ group hgroup)]
    rw [hgroup, Option.getD_some] at hvalue
    show Except.ok (field.known (group.get? f.name)) = .ok (group.get? f.name)
    cases hget : group.get? f.name with
    | none => rfl
    | some value =>
      specialize hvalue value hget
      cases value <;> first | rfl | cases hvalue

/-- The last word on a field in a usual source is plain. -/
theorem IsUsual.isPlain {value : Tree} (h : IsUsual f t) (hsaid : says? f t = some value) :
    value.isPlain = true := by
  obtain ⟨entry, hentry, hword⟩ := exists_of_last?_eq_some hsaid
  obtain ⟨group, hgroup, hgroupWord⟩ := Option.bind_eq_some_iff.1 hword
  obtain ⟨inner, hinner, hvalue⟩ := exists_of_last?_eq_some hgroupWord
  obtain ⟨hname, rfl⟩ := named?_eq_some_iff.1 hgroup
  obtain ⟨hname', rfl⟩ := named?_eq_some_iff.1 hvalue
  exact (h entry hentry hname).2 inner hinner hname'

/-- Merging a usual source: what it says on a field holds, or what was there before. -/
theorem IsSettled.merge (h : IsSettled f s) (ht : IsUsual f t) :
    IsSettled f (s.merge t) ∧ lookup f (s.merge t) = (says? f t).or (lookup f s) := by
  have hmerge : (∀ group, (s.merge t).get? f.group = some group → group.isTable = true) ∧
      lookup f (s.merge t) = (says? f t).or (lookup f s) := by
    rw [Tree.merge, says?]
    rw [IsUsual] at ht
    have hsection := h.section_
    clear h
    revert ht
    generalize t.entries = entries
    intro ht
    -- Entries are merged one after the other, and each may be one for the section.
    induction entries generalizing s with
    | nil =>
      rw [mergeAll]
      exact ⟨hsection, rfl⟩
    | cons entry entries ih =>
      have hrest := fun other hother => ht other (List.mem_cons_of_mem _ hother)
      rw [mergeAll, last?_cons, Option.or_assoc]
      by_cases hname : lower entry.1 = f.group
      · obtain ⟨htable, hplain⟩ := ht entry List.mem_cons_self hname
        obtain ⟨inner, hinner⟩ : ∃ inner, entry.2 = table inner :=
          ⟨_, eq_table_of_isTable htable⟩
        rw [hinner] at hplain
        have hassign : (s.assign f.group (table inner)).get? f.group =
            some (mergeAll ((s.get? f.group).getD (table [])) inner) := by
          rw [assign, get?_insert, if_pos rfl]
        have hgroup : ((s.get? f.group).getD (table [])).isTable = true := by
          cases hget : s.get? f.group with
          | none => rfl
          | some group => exact hsection group hget
        have hsection' : ∀ group, (s.assign f.group (table inner)).get? f.group = some group →
            group.isTable = true := by
          intro group hget
          rw [hassign] at hget
          rw [← Option.some.inj hget]
          exact isTable_mergeAll hgroup inner
        rw [hname, hinner]
        obtain ⟨hsections, hlookup⟩ := ih hsection' hrest
        refine ⟨hsections, hlookup.trans (congrArg _ ?_)⟩
        have hmerged : (mergeAll ((s.get? f.group).getD (table [])) inner).get? f.name = _ :=
          get?_mergeAll hplain _
        rw [lookup, hassign, Option.getD_some, hmerged, named?, if_pos hname, hinner]
        rfl
      · have hget : ∀ value, (s.assign (lower entry.1) value).get? f.group = s.get? f.group :=
          fun value => get?_assign_of_ne (Ne.symm hname)
        have hsection' : ∀ group, (s.assign (lower entry.1) entry.2).get? f.group = some group →
            group.isTable = true := by
          intro group
          rw [hget]
          exact hsection group
        obtain ⟨hsections, hlookup⟩ := ih hsection' hrest
        refine ⟨hsections, hlookup.trans (congrArg _ ?_)⟩
        rw [lookup, hget, named?, if_neg hname]
        rfl
  refine ⟨⟨hmerge.1, ?_⟩, hmerge.2⟩
  intro value hvalue
  rw [hmerge.2] at hvalue
  cases hsaid : says? f t with
  | none =>
    rw [hsaid] at hvalue
    exact h.value value hvalue
  | some word =>
    rw [hsaid] at hvalue
    rw [← Option.some.inj hvalue]
    exact ht.isPlain hsaid

theorem IsSettled.foldl_merge {sources : List Tree} (h : ∀ t ∈ sources, IsUsual f t) :
    IsSettled f (sources.foldl Tree.merge (table [])) := by
  induction sources using List.reverseRecOn with
  | nil => exact isSettled_empty
  | append_singleton sources t ih =>
    rw [List.foldl_append]
    exact ((ih fun other hother => h other (List.mem_append_left _ hother)).merge
      (h t (by simp))).1

/-- The steps to a field. -/
def steps (f : Field) : Configuration.Key :=
  [.name f.group, .name f.name]

/-- Overriding a field with a plain value sets this field, and no other. -/
theorem IsSettled.override (h : IsSettled f s) {value : Tree} (hvalue : value.isPlain = true)
    (g : Field) :
    IsSettled f (s.override value (steps g)) ∧
      lookup f (s.override value (steps g)) =
        if steps f = steps g then some value else lookup f s := by
  have hoverride : s.override value (steps g) =
      s.insert g.group (((s.get? g.group).getD nothing).insert g.name value) := by
    show s.insert g.group ((((s.get? g.group).getD nothing)).assign g.name value) = _
    rw [assign_of_isPlain hvalue]
  have hlookup : lookup f (s.override value (steps g)) =
      if steps f = steps g then some value else lookup f s := by
    rw [lookup, hoverride, get?_insert]
    by_cases hgroup : f.group = g.group
    · rw [if_pos hgroup, Option.getD_some, get?_insert]
      by_cases hname : f.name = g.name
      · rw [if_pos hname, if_pos (by rw [steps, steps, hgroup, hname])]
      · rw [if_neg hname, if_neg fun heq => hname (by simpa [steps, hgroup] using heq), lookup,
          hgroup]
        cases s.get? g.group <;> rfl
    · rw [if_neg hgroup, if_neg fun heq => hgroup (by simp [steps] at heq; exact heq.1)]
      rfl
  refine ⟨⟨?_, ?_⟩, hlookup⟩
  · intro group hget
    rw [hoverride, get?_insert] at hget
    split at hget
    · rw [← Option.some.inj hget]
      rfl
    · exact h.section_ group hget
  · intro value' hvalue'
    rw [hlookup] at hvalue'
    split at hvalue'
    · rwa [← Option.some.inj hvalue']
    · exact h.value value' hvalue'

end

end Tree

namespace Library

open Tree (IsUsual IsSettled)

variable {sources : List Tree} {overrides : List (Configuration.Key × Tree)}

theorem sets?_plain {f : Field} {t : Tree} (h : IsUsual f t) :
    plain.sets? f t = Tree.says? f t := by
  obtain ⟨hsettled, hlookup⟩ := Tree.isSettled_empty.merge h
  have hget : plain.get (plain.build [t] []) f = .ok (Tree.lookup f (Tree.merge (.table []) t)) :=
    hsettled.field_eq
  rw [sets?, hget, hlookup]
  exact Option.or_none

/-- In the plain library a later usual source overrides the earlier ones. -/
theorem laterWins_plain (h : ∀ t ∈ sources, ∀ f, IsUsual f t) : plain.LaterWins sources := by
  intro (front : List Tree) (t : Tree) _ hpre f
  have hfront : ∀ other ∈ front ++ [t], IsUsual f other :=
    fun other hother => h other (hpre.subset hother) f
  have hsettled : IsSettled f (front.foldl Tree.merge (.table [])) :=
    .foldl_merge fun other hother => hfront other (List.mem_append_left _ hother)
  have ht : IsUsual f t := hfront t (by simp)
  obtain ⟨hmerged, hlookup⟩ := hsettled.merge ht
  show Tree.field ((front ++ [t]).foldl Tree.merge (.table [])) f =
    Option.elim _ (Tree.field (front.foldl Tree.merge (.table [])) f) _
  rw [List.foldl_append, List.foldl_cons, List.foldl_nil, hmerged.field_eq, hlookup,
    hsettled.field_eq, sets?_plain ht]
  cases Tree.says? f t <;> rfl

theorem build_plain_concat (sources : List Tree) (front : List (Configuration.Key × Tree))
    (o : Configuration.Key × Tree) :
    plain.build sources (front ++ [o]) = Tree.override (plain.build sources front) o.2 o.1 :=
  List.foldl_concat (fun (s : Tree) (o : Configuration.Key × Tree) => s.override o.2 o.1) _ o front

/-- In the plain library overrides of fields with plain values win over usual sources. -/
theorem overridesWin_plain (h : ∀ t ∈ sources, ∀ f, IsUsual f t)
    (hoverrides : ∀ o ∈ overrides, o.2.isPlain = true ∧ ∃ g : Field, o.1 = Tree.steps g) :
    plain.OverridesWin sources overrides := by
  intro (front : List (Configuration.Key × Tree)) (o : Configuration.Key × Tree) hpre f
  have hsubset : ∀ p ∈ front ++ [o], p.2.isPlain = true ∧ ∃ g : Field, p.1 = Tree.steps g :=
    fun p hp => hoverrides p (hpre.subset hp)
  have hsettled : IsSettled f (plain.build sources front) := by
    have hfront : ∀ p ∈ front, p.2.isPlain = true ∧ ∃ g : Field, p.1 = Tree.steps g :=
      fun p hp => hsubset p (List.mem_append_left _ hp)
    clear hpre hsubset
    induction front using List.reverseRecOn with
    | nil => exact .foldl_merge fun t ht => h t ht f
    | append_singleton front p ih =>
      obtain ⟨hplain, g, hkey⟩ := hfront p (by simp)
      rw [build_plain_concat, hkey]
      exact ((ih fun q hq => hfront q (List.mem_append_left _ hq)).override hplain g).1
  obtain ⟨hplain, g, hkey⟩ := hsubset o (by simp)
  obtain ⟨hoverridden, hlookup⟩ := hsettled.override hplain g
  have hparse : Key.parse? f.key = some (Tree.steps f) := by
    cases f <;> decide +kernel
  have hword : plain.overrides? f o = if Tree.steps f = Tree.steps g then some o.2 else none := by
    show (if Key.parse? f.key = some o.1 then some o.2 else none) = _
    rw [hparse, hkey]
    simp only [Option.some.injEq]
  show Tree.field (plain.build sources (front ++ [o])) f =
    Option.elim _ (Tree.field (plain.build sources front) f) _
  rw [build_plain_concat, hkey, hoverridden.field_eq, hlookup, hword, hsettled.field_eq]
  split <;> rfl

end Library

/-! ### Loading -/

section Loading

variable {L : Library} {disk : Disk}

/-- The file of a layer, with whether it has to be there. -/
def fileOf? : Layer L → Option (Path × Bool)
  | .file path => some (path, true)
  | .optionalFile path => some (path, false)
  | .override _ _ => none

/-- The override of a layer, as it is written. -/
def overrideOf? : Layer L → Option (String × L.Value)
  | .override key value => some (key, value)
  | _ => none

/-- An override with its key. -/
def keyed (o : String × L.Value) : Except ConfigurationError (L.Key × L.Value) :=
  match L.key? o.1 with
  | some k => .ok (k, o.2)
  | none => .error (.malformedKey o.1)

/-- Gathering layers keeps files and overrides apart, each in their order. It fails only because
of a key. -/
theorem foldlM_add (layers : List (Layer L)) (l : Loader L) :
    layers.foldlM Loader.add l =
      ((layers.filterMap overrideOf?).mapM keyed).map fun overrides =>
        { files := l.files ++ layers.filterMap fileOf?
          overrides := l.overrides ++ overrides } := by
  induction layers generalizing l with
  | nil => simp [Except.map, pure, Except.pure]
  | cons layer layers ih =>
    rw [List.foldlM_cons]
    cases layer with
    | file path =>
      show layers.foldlM Loader.add { l with files := l.files ++ [(path, true)] } =
        Except.map _ ((layers.filterMap overrideOf?).mapM keyed)
      rw [ih]
      simp [fileOf?]
    | optionalFile path =>
      show layers.foldlM Loader.add { l with files := l.files ++ [(path, false)] } =
        Except.map _ ((layers.filterMap overrideOf?).mapM keyed)
      rw [ih]
      simp [fileOf?]
    | override key value =>
      show _ = Except.map _ (((key, value) :: layers.filterMap overrideOf?).mapM keyed)
      rw [List.mapM_cons, Loader.add, keyed]
      cases L.key? key with
      | none => rfl
      | some k =>
        show layers.foldlM Loader.add { l with overrides := l.overrides ++ [(k, value)] } = _
        rw [ih]
        cases (layers.filterMap overrideOf?).mapM keyed with
        | error e => rfl
        | ok overrides =>
          simp only [Except.map, bind, Except.bind, pure, Except.pure, List.append_assoc]
          rfl

/-- What a file comes to when layers are loaded. -/
def collect (L : Library) (disk : Disk) (file : Path × Bool) :
    Except ConfigurationError (Option L.Settings) :=
  if file.2 then (readFile L disk file.1).map some else readOptionalFile L disk file.1

theorem load_eq (layers : List (Layer L)) :
    load L disk layers = (do
      let overrides ← (layers.filterMap overrideOf?).mapM keyed
      Loader.build { files := layers.filterMap fileOf?, overrides } disk) := by
  rw [load, foldlM_add]
  cases (layers.filterMap overrideOf?).mapM keyed <;> rfl

/-- A file that is loaded comes to what it sets, if it can be read. -/
theorem eq_of_collect {file : Path × Bool} {s? : Option L.Settings}
    (h : collect L disk file = .ok s?) : s? = (readFile L disk file.1).toOption := by
  obtain ⟨path, isRequired⟩ := file
  rw [collect] at h
  split at h
  · obtain ⟨s, hread, rfl⟩ := map_eq_ok_iff.1 h
    rw [hread]
    rfl
  · rw [readOptionalFile] at h
    split at h
    · next hread =>
      rw [hread, ← Except.ok.inj h]
      rfl
    · cases h
    · next hread =>
      rw [hread, ← Except.ok.inj h]
      rfl

/-- The files that are loaded come to what those of them set that can be read. -/
theorem filterMap_of_mapM_collect {files : List (Path × Bool)} {read : List (Option L.Settings)}
    (h : files.mapM (collect L disk) = .ok read) :
    read.filterMap id = files.filterMap fun file => (readFile L disk file.1).toOption := by
  induction files generalizing read with
  | nil =>
    obtain rfl := Except.ok.inj h
    rfl
  | cons file files ih =>
    rw [List.mapM_cons] at h
    obtain ⟨s?, hs, h⟩ := bind_eq_ok_iff.1 h
    obtain ⟨others, hothers, h⟩ := bind_eq_ok_iff.1 h
    obtain rfl := Except.ok.inj h
    rw [List.filterMap_cons, List.filterMap_cons, ih hothers, ← eq_of_collect hs]
    rfl

/-! ### Layers that do not matter -/

/-- A layer that has a part in the files: a file that may be missing has none if it is. -/
def isPresent (disk : Disk) : Layer L → Bool
  | .file _ => true
  | .optionalFile path => (findFile? L disk path).isSome
  | .override _ _ => false

/-- A layer that is an override. -/
def isOverride : Layer L → Bool
  | .override _ _ => true
  | _ => false

/-- A file that may be missing comes to nothing if it is. -/
theorem collect_of_findFile? {path : Path} (h : findFile? L disk path = none) :
    collect L disk (path, false) = .ok none := by
  have hread : readFile L disk path = .error (.missingFile path) := by
    rw [readFile, h]
    rfl
  simp [collect, readOptionalFile, hread]

/-- Files that come to nothing can be left out. -/
theorem map_filterMap_mapM_collect (layers : List (Layer L)) :
    (((layers.filter (isPresent disk)).filterMap fileOf?).mapM (collect L disk)).map
        (List.filterMap id) =
      ((layers.filterMap fileOf?).mapM (collect L disk)).map (List.filterMap id) := by
  induction layers with
  | nil => rfl
  | cons layer layers ih =>
    -- A file that stays is read on both sides, and what follows is the same by induction.
    have hkept : ∀ file : Path × Bool,
        ((file :: (layers.filter (isPresent disk)).filterMap fileOf?).mapM (collect L disk)).map
            (List.filterMap id) =
          ((file :: layers.filterMap fileOf?).mapM (collect L disk)).map
            (List.filterMap id) := by
      intro file
      rw [List.mapM_cons, List.mapM_cons]
      cases collect L disk file with
      | error e => rfl
      | ok s? =>
        simp only [bind, Except.bind, pure, Except.pure]
        revert ih
        cases ((layers.filter (isPresent disk)).filterMap fileOf?).mapM (collect L disk) <;>
          cases (layers.filterMap fileOf?).mapM (collect L disk) <;>
          simp +contextual [Except.map, List.filterMap_cons]
    cases layer with
    | override key value => exact ih
    | file path => exact hkept (path, true)
    | optionalFile path =>
      cases hfind : findFile? L disk path with
      | some found =>
        rw [List.filter_cons_of_pos (by simp [isPresent, hfind])]
        exact hkept (path, false)
      | none =>
        rw [List.filter_cons_of_neg (by simp [isPresent, hfind]), ih]
        show _ = Except.map _ (((path, false) :: layers.filterMap fileOf?).mapM (collect L disk))
        rw [List.mapM_cons, collect_of_findFile? hfind]
        cases (layers.filterMap fileOf?).mapM (collect L disk) <;> rfl

theorem sources_eq (files : List (Path × Bool)) (overrides : List (L.Key × L.Value)) :
    ({ files, overrides } : Loader L).sources disk =
      builtin L >>= fun first =>
        ((files.mapM (collect L disk)).map (List.filterMap id)).map (first :: ·) := by
  rw [Loader.sources]
  cases builtin L with
  | error e => rfl
  | ok first =>
    show (do let read ← files.mapM (collect L disk); return first :: read.filterMap id) = _
    cases files.mapM (collect L disk) <;> rfl

theorem filterMap_overrideOf? (layers : List (Layer L)) :
    (layers.filter isOverride).filterMap overrideOf? = layers.filterMap overrideOf? := by
  rw [List.filterMap_filter]
  congr 1
  funext layer
  cases layer <;> rfl

/-- Layers with the same present files and the same overrides, each in their order, lead to the
same configuration. -/
theorem load_congr {layers layers' : List (Layer L)}
    (hfiles : layers'.filter (isPresent disk) = layers.filter (isPresent disk))
    (hoverrides : layers'.filter isOverride = layers.filter isOverride) :
    load L disk layers' = load L disk layers := by
  have hsources (overrides : List (L.Key × L.Value)) :
      ({ files := layers'.filterMap fileOf?, overrides } : Loader L).sources disk =
        ({ files := layers.filterMap fileOf?, overrides } : Loader L).sources disk := by
    rw [sources_eq, sources_eq, ← map_filterMap_mapM_collect layers', hfiles,
      map_filterMap_mapM_collect]
  rw [load_eq, load_eq, ← filterMap_overrideOf? layers', hoverrides, filterMap_overrideOf?]
  simp only [Loader.build, hsources]

/-! ### What is configured -/

section Configured

variable (L) (disk) (layers : List (Layer L))

/-- The settings of a layer that is a file, if it can be read. -/
def ofFile? : Layer L → Option L.Settings
  | .file path | .optionalFile path => (readFile L disk path).toOption
  | .override _ _ => none

/-- The key and the value of a layer that is an override. -/
def ofOverride? : Layer L → Option (L.Key × L.Value)
  | .override key value => (L.key? key).map fun k => (k, value)
  | _ => none

/-- The sources among some layers: the built-in one, and the files that can be read. -/
def sources : List L.Settings :=
  (builtin L).toOption.toList ++ layers.filterMap (ofFile? L disk)

/-- The overrides among some layers. -/
def overrides : List (L.Key × L.Value) :=
  layers.filterMap (ofOverride? L)

/-- The value of a field that the last override of its key sets, else the last file that can be
read and sets it, else the built-in one. -/
def chosen (f : Field) : Option L.Value :=
  (last? (L.overrides? f) (overrides L layers)).or
    ((last? (L.sets? f) (layers.filterMap (ofFile? L disk))).or
      ((builtin L).toOption.bind (L.sets? f)))

variable {L disk layers}

theorem overrides_of_mapM_keyed {os : List (L.Key × L.Value)}
    (h : (layers.filterMap overrideOf?).mapM keyed = .ok os) : os = overrides L layers := by
  induction layers generalizing os with
  | nil => exact (Except.ok.inj h).symm
  | cons layer layers ih =>
    cases layer with
    | file path => exact ih h
    | optionalFile path => exact ih h
    | override key value =>
      change ((key, value) :: layers.filterMap overrideOf?).mapM keyed = .ok os at h
      rw [List.mapM_cons] at h
      obtain ⟨o, ho, h⟩ := bind_eq_ok_iff.1 h
      obtain ⟨rest, hrest, h⟩ := bind_eq_ok_iff.1 h
      obtain rfl := Except.ok.inj h
      rw [keyed] at ho
      cases hkey : L.key? key with
      | none =>
        rw [hkey] at ho
        cases ho
      | some k =>
        rw [hkey] at ho
        obtain rfl := Except.ok.inj ho
        rw [ih hrest, overrides, overrides,
          List.filterMap_cons_some (b := (k, value)) (by rw [ofOverride?, hkey]; rfl)]

/-- Layers that lead to a configuration do so through their sources and overrides. -/
theorem ofSettings_of_load {c : Configuration} (h : load L disk layers = .ok c) :
    ∃ first, builtin L = .ok first ∧
      ofSettings L (L.build (sources L disk layers) (overrides L layers)) = .ok c := by
  rw [load_eq] at h
  obtain ⟨os, hos, h⟩ := bind_eq_ok_iff.1 h
  obtain ⟨ss, hss, h⟩ := bind_eq_ok_iff.1 h
  rw [sources_eq] at hss
  obtain ⟨first, hfirst, hss⟩ := bind_eq_ok_iff.1 hss
  obtain ⟨files, hfiles, rfl⟩ := map_eq_ok_iff.1 hss
  obtain ⟨read, hread, rfl⟩ := map_eq_ok_iff.1 hfiles
  have hread' : read.filterMap id = layers.filterMap (ofFile? L disk) := by
    rw [filterMap_of_mapM_collect hread, List.filterMap_filterMap]
    congr 1
    funext layer
    cases layer <;> rfl
  rw [hread', overrides_of_mapM_keyed hos] at h
  refine ⟨first, hfirst, ?_⟩
  rw [sources, hfirst]
  exact h

/-- What a field is in the end, under what is asked of the library. -/
theorem get_build_eq {first : L.Settings} (hfirst : builtin L = .ok first)
    (hlater : L.LaterWins (sources L disk layers))
    (hwin : L.OverridesWin (sources L disk layers) (overrides L layers)) {f : Field}
    {value : Option L.Value}
    (h : L.get (L.build (sources L disk layers) (overrides L layers)) f = .ok value) :
    value = chosen L disk layers f := by
  have hsources : sources L disk layers = first :: layers.filterMap (ofFile? L disk) := by
    rw [sources, hfirst]
    rfl
  rw [hwin.get_build] at h
  rw [chosen, hfirst]
  cases hoverride : last? (L.overrides? f) (overrides L layers) with
  | some v =>
    rw [hoverride] at h
    exact (Except.ok.inj h).symm
  | none =>
    rw [hsources] at hlater
    rw [hoverride, hsources, Option.elim_none, hlater.get_build] at h
    cases hfile : last? (L.sets? f) (layers.filterMap (ofFile? L disk)) with
    | some v =>
      rw [hfile] at h
      exact (Except.ok.inj h).symm
    | none =>
      rw [hfile, Option.elim_none] at h
      simp [Library.sets?, h, Except.toOption]

variable {s : L.Settings} {α : Type} {f : Field} {read? : L.Value → Option α}

theorem get_of_required {a : α} (h : required L s f read? = .ok a) :
    ∃ value, L.get s f = .ok (some value) ∧ read? value = some a := by
  rw [required] at h
  split at h
  · next value hget =>
    split at h
    · next a' hread =>
      obtain rfl := Except.ok.inj h
      exact ⟨value, hget, hread⟩
    · cases h
  · cases h

theorem get_of_optional {a : Option α} (h : optional L s f read? = .ok a) :
    ∃ value, L.get s f = .ok value ∧ value.map read? = a.map some := by
  rw [optional] at h
  split at h
  · next hget =>
    obtain rfl := Except.ok.inj h
    exact ⟨none, hget, rfl⟩
  · next value hget =>
    split at h
    · next a' hread =>
      obtain rfl := Except.ok.inj h
      exact ⟨some value, hget, by rw [Option.map_some, hread, Option.map_some]⟩
    · cases h
  · cases h

/-- What is read from settings that stand for a configuration. -/
theorem of_ofSettings {c : Configuration} (h : ofSettings L s = .ok c) :
    1 ≤ c.tabWidth ∧
      required L s .tabWidth L.toNat? = .ok c.tabWidth ∧
      optional L s .cacheDirectory L.toText? = .ok c.cacheDirectory ∧
      required L s .builtinFilters L.toFlag? = .ok c.builtinFilters ∧
      required L s .autotags L.toFlag? = .ok c.autotags := by
  obtain ⟨tabWidth, hwidth, h⟩ := bind_eq_ok_iff.1 h
  obtain ⟨cacheDirectory, hcache, h⟩ := bind_eq_ok_iff.1 h
  obtain ⟨builtinFilters, hfilters, h⟩ := bind_eq_ok_iff.1 h
  obtain ⟨autotags, htags, h⟩ := bind_eq_ok_iff.1 h
  split at h
  · cases h
  · next hpos =>
    obtain rfl := Except.ok.inj h
    exact ⟨Nat.pos_of_ne_zero hpos, hwidth, hcache, hfilters, htags⟩

variable (L disk) in
/-- Layers lead to a configuration with a positive width of a tab only. If later sources override
earlier ones and overrides win, each of its values is read from the value of the last override of
its key, else of the last file that can be read and sets it, else from the built-in one. Neither
where overrides stand among the files nor files that may be missing and are matter. If layers
lead to no configuration, no engine is made of them, and the command changes nothing. -/
theorem load_resolves_layers (layers : List (Layer L)) :
    (∀ c, load L disk layers = .ok c →
      1 ≤ c.tabWidth ∧
      (L.LaterWins (sources L disk layers) →
        L.OverridesWin (sources L disk layers) (overrides L layers) →
        (chosen L disk layers .tabWidth).map L.toNat? = some (some c.tabWidth) ∧
        (chosen L disk layers .cacheDirectory).map L.toText? = c.cacheDirectory.map some ∧
        (chosen L disk layers .builtinFilters).map L.toFlag? = some (some c.builtinFilters) ∧
        (chosen L disk layers .autotags).map L.toFlag? = some (some c.autotags))) ∧
    (∀ layers', layers'.filter (isPresent disk) = layers.filter (isPresent disk) →
      layers'.filter isOverride = layers.filter isOverride →
      load L disk layers' = load L disk layers) ∧
    ∀ e, load L disk layers = .error e →
      ((load L disk layers).mapError Error.configuration >>= Engine.ofConfiguration) =
          .error (.configuration e) ∧
        ∀ input i path, i.layers L = layers →
          CommandLine.compile L disk input i path = (.error (.configuration e), disk) := by
  refine ⟨?_, fun layers' => load_congr, ?_⟩
  · intro c h
    obtain ⟨first, hfirst, hsettings⟩ := ofSettings_of_load h
    obtain ⟨hpos, hwidth, hcache, hfilters, htags⟩ := of_ofSettings hsettings
    refine ⟨hpos, fun hlater hwin => ?_⟩
    -- What has been read is what has been chosen.
    have hrequired : ∀ {α : Type} {f : Field} {read? : L.Value → Option α} {a : α},
        required L (L.build (sources L disk layers) (overrides L layers)) f read? = .ok a →
        (chosen L disk layers f).map read? = some (some a) := by
      intro α f read? a hread
      obtain ⟨value, hget, hvalue⟩ := get_of_required hread
      rw [← get_build_eq hfirst hlater hwin hget, Option.map_some, hvalue]
    obtain ⟨value, hget, hvalue⟩ := get_of_optional hcache
    rw [get_build_eq hfirst hlater hwin hget] at hvalue
    exact ⟨hrequired hwidth, hvalue, hrequired hfilters, hrequired htags⟩
  · intro e h
    refine ⟨by rw [h]; rfl, fun input i path hlayers => ?_⟩
    rw [CommandLine.compile, hlayers, h]
    rfl

end Configured

/-- Files with the given texts. -/
def diskOf (files : List (String × String)) : Disk :=
  { entries := files.map fun file => ([.ofString file.1], .file (.text file.2) 0) }

/-- Two files and an override. The width of zero in a file is masked by the override in front of
it. -/
def maskedDisk : Disk :=
  diskOf [("a", "[render]\ntab_width = 0"), ("b", "[Extensions]\nautotags = \"off\"")]

def maskedLayers : List (Layer .plain) :=
  [.override "render.Tab_Width" (.text "8"), .file (.ofString "a"), .optionalFile (.ofString "c"),
    .file (.ofString "b")]

/-- The built-in settings as a tree. -/
def builtinTree : Tree :=
  .table
    [("render", .table [("tab_width", .number 2)]),
     ("cache", .table []),
     ("extensions", .table [("builtin_filters", .flag true), ("autotags", .flag true)])]

set_option maxRecDepth 4000 in
theorem builtin_plain : builtin .plain = .ok builtinTree := by
  have htext : builtinText.toList = builtinLines.flatMap fun line => line.toList ++ ['\n'] := by
    unfold builtinText
    exact String.toList_ofList
  have hread : Tree.readLines? [] none (Tree.lines (Character.dropOne '\ufeff'
      (builtinLines.flatMap fun line => line.toList ++ ['\n']))) = some builtinTree := rfl
  have hparse : Library.plain.parse? builtinText = some builtinTree := by
    show Tree.parse? builtinText = some builtinTree
    rw [Tree.parse?, htext, hread]
  rw [builtin, hparse]

theorem load_resolves_layers_masked :
    load .plain maskedDisk maskedLayers = .ok ⟨8, none, true, false⟩ ∧
      (chosen .plain maskedDisk maskedLayers .tabWidth).map Tree.toNat? = some (some 8) ∧
      (chosen .plain maskedDisk maskedLayers .autotags).map Tree.toFlag? = some (some false) := by
  have hload : load .plain maskedDisk maskedLayers = .ok ⟨8, none, true, false⟩ := by
    rw [load_eq]
    simp only [Loader.build, sources_eq, builtin_plain]
    decide +kernel
  have husual : ∀ t ∈ sources .plain maskedDisk maskedLayers, ∀ f, Tree.IsUsual f t := by
    intro t ht f
    rw [sources, builtin_plain] at ht
    have hall : ∀ t ∈ builtinTree ::
        (maskedLayers.filterMap (ofFile? .plain maskedDisk) : List Tree), Tree.IsUsual f t := by
      cases f <;> decide +kernel
    exact hall t ht
  have hplain : ∀ o ∈ (overrides .plain maskedLayers : List (Configuration.Key × Tree)),
      o.2.isPlain = true ∧ ∃ g : Field, o.1 = Tree.steps g := by
    intro o ho
    have hall : ∀ o ∈ (overrides .plain maskedLayers : List (Configuration.Key × Tree)),
        o.2.isPlain = true ∧ o.1 = Tree.steps .tabWidth := by
      decide +kernel
    exact ⟨(hall o ho).1, .tabWidth, (hall o ho).2⟩
  obtain ⟨-, hresolves⟩ := (load_resolves_layers .plain maskedDisk maskedLayers).1 _ hload
  obtain ⟨hwidth, -, -, htags⟩ := hresolves (Library.laterWins_plain husual)
    (Library.overridesWin_plain husual hplain)
  exact ⟨hload, hwidth, htags⟩

end Loading

end Offside.Configuration
