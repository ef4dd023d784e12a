import Offside.Character.Trim

/-!
# Layout

How wide a level of indentation is: the width of a tab in a template and of a
level in the markup.
-/

set_option autoImplicit false

namespace Offside

/-- The width of a tab in a template and of a level in the markup. -/
structure Layout where
  tabWidth : Nat := 2
deriving DecidableEq, Repr

/-- The indentation of a line at the given level. -/
def Layout.indent (layout : Layout) (level : Nat) : String :=
  Character.spaces (level * layout.tabWidth)

end Offside
