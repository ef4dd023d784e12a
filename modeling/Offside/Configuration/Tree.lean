import Offside.Configuration.Key
import Offside.Entries

/-!
# Settings

A setting is a value, a list of settings or a table of settings by name. Settings
of a later source replace those of an earlier one, name by name (`Tree.merge`),
and a setting can be replaced by its key (`Tree.override`). Names that differ in
case only are the same name. A value can be read as another type where it has an
obvious meaning there.
-/

set_option autoImplicit false

namespace Offside.Configuration

/-- A value, or settings by position or by name. -/
inductive Tree where
  /-- Nothing has been set. -/
  | nothing
  | flag (on : Bool)
  | number (value : Int)
  | text (value : String)
  | list (items : List Tree)
  | table (entries : List (String × Tree))
deriving Repr

namespace Tree

/-- The settings by name. What is not a table has none. -/
def entries : Tree → List (String × Tree)
  | table entries => entries
  | _ => []

/-- The settings by position. What is not a list has none. -/
def items : Tree → List Tree
  | list items => items
  | _ => []

/-- The setting with the given name in a table. -/
def get? (s : Tree) (name : String) : Option Tree :=
  s.entries.lookup name

/-- A table with one setting replaced. What is not a table gives way to one. -/
def insert (s : Tree) (name : String) (value : Tree) : Tree :=
  table (Entries.set name value s.entries)

/-! ### Layers -/

mutual

/-- Sets a name in a table. A table is merged into what is there. -/
def assign (s : Tree) (name : String) : Tree → Tree
  | table entries => s.insert name (mergeAll ((s.get? name).getD (table [])) entries)
  | value => s.insert name value

/-- Sets the names of a table one after the other. An empty table changes
nothing. -/
def mergeAll (s : Tree) : List (String × Tree) → Tree
  | [] => s
  | (name, value) :: entries => mergeAll (assign s (lower name) value) entries

end

/-- The settings of two sources. Those of the second one win. -/
def merge (s other : Tree) : Tree :=
  s.mergeAll other.entries

/-- Changes the item at a position. The list grows at the end, or at the front for
a negative position, as far as it has to. -/
def modifyItem (items : List Tree) (index : Int) (f : Tree → Tree) : List Tree :=
  let items := List.replicate (-index - items.length).toNat nothing ++ items
  let position := (if index < 0 then items.length + index else index).toNat
  let items := items ++ List.replicate (position + 1 - items.length) nothing
  items.modify position f

/-- Replaces the setting that a key leads to. Values in the way give way to tables
and lists. A table is merged into what has its name. -/
def override (s value : Tree) : Key → Tree
  | [] => value
  | [.name name] => s.assign name value
  | .name name :: key => s.insert name (((s.get? name).getD nothing).override value key)
  | .index index :: key =>
    list (modifyItem s.items index fun item => item.override value key)

/-! ### Reading values -/

/-- The truth value that a word stands for. -/
def flagOfWord? (word : String) : Option Bool :=
  let word := lower word
  if word ∈ ["true", "on", "yes"] then some true
  else if word ∈ ["false", "off", "no"] then some false
  else none

/-- A setting read as a natural number. -/
def toNat? : Tree → Option Nat
  | flag on => some on.toNat
  | number value => if 0 ≤ value then some value.toNat else none
  | text word =>
    match flagOfWord? word with
    | some on => some on.toNat
    | none => Character.natOfDigits? word
  | nothing | list _ | table _ => none

/-- A setting read as a truth value. -/
def toFlag? : Tree → Option Bool
  | flag on => some on
  | number value => some (value ≠ 0)
  | text "1" => some true
  | text "0" => some false
  | text word => flagOfWord? word
  | nothing | list _ | table _ => none

/-- A setting read as a text. -/
def toText? : Tree → Option String
  | flag on => some (if on then "true" else "false")
  | number value => some (toString value)
  | text value => some value
  | nothing | list _ | table _ => none

end Tree

end Offside.Configuration
