import Offside.Document.Basic

/-!
# Visitors

A visitor rewrites nodes of one kind just before they are rendered. It is given the whole node
with all that is inside of it, and leaves a node of the same kind in its place.
-/

set_option autoImplicit false

namespace Offside

/-- Why a visitor refuses a node. -/
inductive VisitError where
  | unsupportedNode (visitor : String) (found : Node.Kind)
deriving DecidableEq, Repr

/-- The text of the error. -/
def VisitError.message : VisitError → String
  | unsupportedNode visitor found => visitor ++ " cannot visit " ++ found.name ++ " nodes"

/-- Rewrites nodes, each kind in its own way; by default it leaves them as they are. -/
structure Visitor where
  code : Code → Except VisitError Code := .ok
  comment : Comment → Except VisitError Comment := .ok
  doctype : Doctype → Except VisitError Doctype := .ok
  filter : Filter → Except VisitError Filter := .ok
  tag : Tag → Except VisitError Tag := .ok
  text : Text → Except VisitError Text := .ok

end Offside
