/-!
# Decimal numbers in text

An unsigned number is written with ASCII digits, at least one, behind an optional plus sign. Leading
zeros are allowed. A number that is too large for its place is refused.
-/

namespace Dissection.Text.Number

/-- The number that digits spell, unless one of the characters is no digit. -/
def ofDigits? (value : Nat) : List Char → Option Nat
  | [] => some value
  | c :: rest => if c.isDigit then ofDigits? (value * 10 + (c.toNat - '0'.toNat)) rest else none

def unsigned (text : List Char) : List Char :=
  match text with
  | '+' :: rest => rest
  | _ => text

/-- Reads a number below `limit`. -/
def parse? (limit : Nat) (text : List Char) : Option Nat :=
  let digits := unsigned text
  if digits = [] then none else (ofDigits? 0 digits).filter (fun number => decide (number < limit))

end Dissection.Text.Number
