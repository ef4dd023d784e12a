import Offside.Configuration.File
import Offside.Configuration.Library
import Offside.Disk

/-!
# A plain library

A library for files of a plain form (`Tree.parse?`), whose settings are trees.
-/

set_option autoImplicit false

namespace Offside.Configuration

/-- What a field is set to in a tree. A section that is a list has its values by position. -/
def Tree.field (s : Tree) (f : Field) : Except Unit (Option Tree) :=
  match s.get? f.group with
  | none => .ok none
  | some (.table entries) => .ok (known (entries.lookup f.name))
  | some (.list items) => .ok (known items[f.position]?)
  | some _ => .error ()
where
  /-- A setting, unless nothing has been set. -/
  known : Option Tree → Option Tree
    | some .nothing => none
    | setting => setting

/-- A library for plain files. A file is looked for at its path, and with the usual ending behind
its last name. -/
abbrev Library.plain : Library where
  Settings := Tree
  Key := Configuration.Key
  Value := Tree
  decidableKey := inferInstance
  candidates path := path :: (Disk.withEnding? path (.ofString ".toml")).toList
  parse? := Tree.parse?
  key? := Key.parse?
  ofNumber := .number
  ofText := .text
  build sources overrides :=
    overrides.foldl (fun s o => s.override o.2 o.1) (sources.foldl Tree.merge (.table []))
  get := Tree.field
  toNat? := Tree.toNat?
  toFlag? := Tree.toFlag?
  toText? := Tree.toText?

end Offside.Configuration
