import EntityQuery.Decimal.Layout
import EntityQuery.Text.Quoted

/-! # Values

The operands of a condition: quoted text, numbers, the two truth values, null, and the pair of
bounds that only a range takes. `==` on values compares floats as numbers do, so the two zeros are
equal and a float that is not a number differs from itself; `=` tells all of them apart by their
bits. -/

namespace EntityQuery

/-- A number is kept whole when it was written whole and fits 64 bits. -/
inductive Number
  | integer (value : Int64)
  | float (value : Float)
  deriving DecidableEq, BEq, Repr

/-- What a field can be compared with. -/
inductive Value
  | string (text : String)
  | number (value : Number)
  | boolean (value : Bool)
  | null
  | pair (first second : Value)
  deriving DecidableEq, BEq, Repr

instance : Inhabited Value := ⟨.null⟩

/-- Floats have their point in its place from `0.0001` up to, and not including, `10 ^ 16`. -/
def Number.layout : Decimal.Layout := { least := -4, greatest := 15 }

/-- A number as it is written in a statement. -/
def Number.write : Number → List Char
  | .integer n => Decimal.writeInt n.toInt
  | .float x => Number.layout.write x

namespace Value

/-- The operand of a range. -/
def isPair : Value → Bool
  | .pair _ _ => true
  | _ => false

/-- A value as it is written in a statement. A pair is written as the bounds of a range. -/
def write : Value → List Char
  | .string text => Text.enclose '\'' text.toList
  | .number n => n.write
  | .boolean true => "true".toList
  | .boolean false => "false".toList
  | .null => "null".toList
  | .pair first second => first.write ++ " AND ".toList ++ second.write

def render (v : Value) : String :=
  String.ofList v.write

end Value

end EntityQuery
