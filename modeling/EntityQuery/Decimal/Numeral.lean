import EntityQuery.Decimal.Double
import EntityQuery.Decimal.Whole

/-! # Decimals

Reading decimal text with a fraction and an exponent as the nearest double. The whole text is read
or nothing. -/

namespace EntityQuery.Decimal

/-- The exponent of a decimal: nothing, or the mark `e` in either case, a sign or none, and digits.
-/
def readExponent : List Char → Option Int
  | [] => some 0
  | mark :: cs =>
    if mark = 'e' ∨ mark = 'E' then
      match cs with
      | '+' :: ds => if isDigits ds then some (digitsValue ds) else none
      | '-' :: ds => if isDigits ds then some (-(digitsValue ds : Int)) else none
      | ds => if isDigits ds then some (digitsValue ds) else none
    else none

/-- The parts of a decimal without a sign: its digits as one whole number, and the exponent of the
last of them. The point may stand at either end of the digits, but not alone. -/
def readUnsigned (cs : List Char) : Option (Nat × Int) :=
  let whole := cs.takeWhile Char.isDigit
  let (fraction, rest) :=
    match cs.dropWhile Char.isDigit with
    | '.' :: after => (after.takeWhile Char.isDigit, after.dropWhile Char.isDigit)
    | after => ([], after)
  if whole.isEmpty && fraction.isEmpty then none
  else (readExponent rest).map fun e => (digitsValue (whole ++ fraction), e - fraction.length)

/-- The double nearest to a decimal: a minus sign or none, digits with a point or without, and an
exponent or none. -/
def readDecimal (cs : List Char) : Option Float :=
  let (negative, rest) := takeMinus cs
  (readUnsigned rest).map fun parts => nearest negative parts.1 parts.2

end EntityQuery.Decimal
