/-!
# Indentation

The levels of indentation that are open at a point of a template. The root level
has width 0 and is never closed. A level can only be opened above the current
one, so the open widths ascend.
-/

set_option autoImplicit false

namespace Offside

/-- The open levels of indentation. -/
structure Indentation where
  /-- The widths of the levels above the root, innermost first. -/
  opened : List Nat := []
deriving DecidableEq, Repr

namespace Indentation

/-- The width of the innermost level. -/
def current (i : Indentation) : Nat :=
  i.opened.headD 0

/-- The number of open levels above the root. -/
def depth (i : Indentation) : Nat :=
  i.opened.length

/-- All open widths, from the root on. -/
def levels (i : Indentation) : List Nat :=
  0 :: i.opened.reverse

/-- Opens a level of the given width, if it is above the current one. -/
def push (i : Indentation) (width : Nat) : Indentation :=
  if i.current < width then ⟨width :: i.opened⟩ else i

/-- Closes the innermost level, unless it is the root. -/
def pop? (i : Indentation) : Option (Nat × Indentation) :=
  match i.opened with
  | [] => none
  | width :: opened => some (width, ⟨opened⟩)

/-- Closes all levels above the one of the given width and returns their number.
Fails when no level of that width is open. -/
def closeTo? (i : Indentation) (width : Nat) : Option (Nat × Indentation) :=
  let kept := i.opened.dropWhile (· ≠ width)
  if width = 0 ∨ kept ≠ [] then some (i.opened.length - kept.length, ⟨kept⟩) else none

end Indentation

end Offside
