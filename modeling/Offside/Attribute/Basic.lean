import Offside.Entries

/-!
# Attributes

The attributes of a tag or filter: a map from names to values that remembers the
order in which its names were first set. A name occurs once, and setting it again
changes its value in place (`keys_insert`).
-/

set_option autoImplicit false

namespace Offside

/-- The value of an attribute: a switch, one text, or a list of texts. -/
inductive Attribute.Value where
  | flag (on : Bool)
  | text (value : String)
  | list (items : List String)
deriving DecidableEq, Repr

/-- An attribute's name with its value. -/
abbrev Attribute.Entry : Type :=
  String × Attribute.Value

/-- Attributes in the order their names were first set. -/
structure Attributes where
  /-- The entries, first set first. -/
  entries : List Attribute.Entry
  /-- No name has two entries. -/
  nodup : (entries.map Prod.fst).Nodup
deriving DecidableEq, Repr

namespace Attributes

open Attribute (Value Entry)

/-- No attributes. -/
def empty : Attributes :=
  ⟨[], .nil⟩

/-- The names, in order. -/
def keys (as : Attributes) : List String :=
  as.entries.map Prod.fst

/-- The value of `key`, if it is set. -/
def get? (as : Attributes) (key : String) : Option Value :=
  as.entries.lookup key

/-- Sets `key` to `value`. -/
def insert (as : Attributes) (key : String) (value : Value) : Attributes where
  entries := Entries.set key value as.entries
  nodup := by
    rw [Entries.map_fst_set]
    split
    · exact as.nodup
    · next h =>
      refine List.nodup_append.2 ⟨as.nodup, by simp, ?_⟩
      intro a ha b hb hab
      simp only [List.mem_singleton] at hb
      exact h (hb ▸ hab ▸ ha)

/-- Setting a known name keeps the order of names; a new name goes last. -/
theorem keys_insert (as : Attributes) (key : String) (value : Value) :
    (as.insert key value).keys = if key ∈ as.keys then as.keys else as.keys ++ [key] :=
  Entries.map_fst_set key value as.entries

/-- Setting a name changes what is found under that name, and nothing else. -/
theorem get?_insert (as : Attributes) (key other : String) (value : Value) :
    (as.insert key value).get? other = if other = key then some value else as.get? other := by
  simp only [get?, insert, Entries.lookup_set, beq_iff_eq]

/-- The attributes that setting the given entries one after the other leads to. -/
def ofList (entries : List Entry) : Attributes :=
  entries.foldl (fun as (key, value) => as.insert key value) empty

end Attributes

end Offside
