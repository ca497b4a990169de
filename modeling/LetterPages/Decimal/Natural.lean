/-!
# Natural numbers as users write them

Decimal digits, leading zeros allowed, possibly after a plus sign.
-/

namespace LetterPages.Decimal

def natural? (text : List Char) : Option Nat :=
  let digits := match text with
    | '+' :: r => r
    | r => r
  if digits ≠ [] ∧ digits.all Char.isDigit then
    some (digits.foldl (fun n c => n * 10 + (c.toNat - 48)) 0)
  else none

end LetterPages.Decimal
