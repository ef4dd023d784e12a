import Offside.Character.Trim

/-!
# Readers

A reader recognises something at the front of a text and hands back the rest. The
rest is strictly shorter than the text by its type, so a loop over a reader ends
and no fuel is needed. `cut` is such a loop: one pass from left to right that
takes out every span a reader recognises.
-/

set_option autoImplicit false

namespace Offside.Character

/-- What is left of `cs` once something has been read off its front. -/
abbrev Rest (cs : List Char) : Type :=
  { rest : List Char // rest.length < cs.length }

/-- Recognises an `α` at the front of a text, or declines. -/
abbrev Reader (α : Type) : Type :=
  (cs : List Char) → Option (α × Rest cs)

/-- Dropping a run of characters never lengthens a text. -/
theorem length_dropWhile_le (p : Char → Bool) (cs : List Char) :
    (cs.dropWhile p).length ≤ cs.length :=
  (List.dropWhile_sublist p).length_le

/-- What is left of a text is shorter than the text with a character in front. -/
theorem length_lt_cons {rest cs : List Char} (h : rest.length < cs.length) :
    rest.length < cs.length + 1 :=
  Nat.lt_succ_of_lt h

theorem length_lt_cons_self (cs : List Char) : cs.length < cs.length + 1 :=
  Nat.lt_succ_self _

/-- The rest after the first character of a text and the run of `p` behind it. -/
def Rest.afterRun (p : Char → Bool) (c : Char) (cs : List Char) : Rest (c :: cs) :=
  ⟨cs.dropWhile p, Nat.lt_succ_of_le (length_dropWhile_le p cs)⟩

/-- Reads up to the first `close`, which is read too but not part of the result. -/
def upTo (close : Char) : Reader (List Char)
  | [] => none
  | c :: cs =>
    if c = close then some ([], ⟨cs, length_lt_cons_self cs⟩)
    else
      match upTo close cs with
      | some (body, ⟨rest, h⟩) => some (c :: body, ⟨rest, length_lt_cons h⟩)
      | none => none

/-- A piece of a text that was cut: a span some reader recognised, or a single
character between two spans. -/
inductive Piece (α : Type) where
  | char (c : Char)
  | span (a : α)
deriving DecidableEq, Repr

/-- Cuts a text into pieces, from left to right: where `read` recognises a span
the pass goes on behind it, any other character stands for itself. -/
def cut {α : Type} (read : Reader α) : List Char → List (Piece α)
  | [] => []
  | c :: cs =>
    match read (c :: cs) with
    | some (a, ⟨rest, h⟩) =>
      have : rest.length < (c :: cs).length := h
      .span a :: cut read rest
    | none => .char c :: cut read cs
termination_by cs => cs.length
decreasing_by
  · exact this
  · exact Nat.lt_succ_self _

theorem cut_nil {α : Type} (read : Reader α) : cut read [] = [] := by
  rw [cut]

theorem cut_of_none {α : Type} {read : Reader α} {c : Char} {cs : List Char}
    (h : read (c :: cs) = none) : cut read (c :: cs) = .char c :: cut read cs := by
  rw [cut, h]

theorem cut_of_some {α : Type} {read : Reader α} {c : Char} {cs rest : List Char} {a : α}
    {hrest : rest.length < (c :: cs).length} (h : read (c :: cs) = some (a, ⟨rest, hrest⟩)) :
    cut read (c :: cs) = .span a :: cut read rest := by
  rw [cut, h]

/-- One pass over a text that writes `write a` for every span `a` and copies
every other character. -/
def replaceSpans {α : Type} (read : Reader α) (write : α → List Char) (cs : List Char) :
    List Char :=
  (cut read cs).flatMap fun
    | .char c => [c]
    | .span a => write a

/-- The spans `read` finds in a text, in order. -/
def spans {α : Type} (read : Reader α) (cs : List Char) : List α :=
  (cut read cs).filterMap fun
    | .char _ => none
    | .span a => some a

end Offside.Character
