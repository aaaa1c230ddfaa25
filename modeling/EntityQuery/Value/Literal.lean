import EntityQuery.Decimal.Numeral
import EntityQuery.Text.Blank
import EntityQuery.Text.Listing
import EntityQuery.Value.Basic

/-! # Literals

Which value a single word stands for. The blanks around it do not count. Quoted text comes first,
then the three words in any case, then numbers; a word of none of these forms is no literal. -/

namespace EntityQuery

/-- A number begins with a digit, after a minus sign or without one. A whole number that fits 64
bits stays whole; any other decimal is the nearest double, and is refused when that is infinite. -/
def Number.ofLiteral? (cs : List Char) : Option Number :=
  match (Decimal.takeMinus cs).2 with
  | [] => none
  | c :: _ =>
    if c.isDigit then
      match Decimal.readInt64 cs with
      | some n => some (.integer n)
      | none => ((Decimal.readDecimal cs).filter Float.isFinite).map .float
    else none

namespace Value

/-- The value of a word without blanks around it. -/
def ofTrimmed? (cs : List Char) : Option Value :=
  match Text.unquote cs with
  | some inner => some (.string (String.ofList inner))
  | none =>
    if Text.equalIgnoringCase cs "true".toList then some (.boolean true)
    else if Text.equalIgnoringCase cs "false".toList then some (.boolean false)
    else if Text.equalIgnoringCase cs "null".toList then some .null
    else (Number.ofLiteral? cs).map .number

/-- The value that a word stands for. -/
def ofLiteral? (token : String) : Option Value :=
  ofTrimmed? (Text.trim token.toList)

end Value

end EntityQuery
