/-!
# Decimal digits

The number that a run of decimal digits stands for.
-/

set_option autoImplicit false

namespace Offside.Character

/-- The number that decimal digits stand for, the first digit weighing most. -/
def ofDigits (digits : List Char) : Nat :=
  digits.foldl (fun n c => 10 * n + (c.toNat - '0'.toNat)) 0

/-- The number that decimal digits stand for, with a plus sign or without, if it
fits into 64 bits. -/
def natOfDigits? (text : String) : Option Nat :=
  let digits :=
    match text.toList with
    | '+' :: digits => digits
    | digits => digits
  if digits ≠ [] ∧ digits.all Char.isDigit then
    let value := ofDigits digits
    if value < 0x10000000000000000 then some value else none
  else none

end Offside.Character
