import EntityQuery.Decimal.Double
import EntityQuery.Json.Basic

/-! # Records and variants in JSON

A record is written as an object of its fields, in any order and among any others, or as the array
of its fields in their order. A variant is written as its name when it holds nothing, and as an
object with the name as its only member when it holds something. -/

namespace EntityQuery.Json

/-- The value of a member, absent or present once. A name that comes twice makes no record. -/
def member? (members : List (String × Json)) (name : String) : Option (Option Json) :=
  match members.filter (·.1 == name) with
  | [] => some none
  | [(_, value)] => some (some value)
  | _ => none

/-- The fields of a record, each absent or present. An array holds no more than the fields, and no
fewer unless it may be cut short. -/
def fields? (cutShort : Bool) (names : List String) : Json → Option (List (Option Json))
  | .object members => names.mapM (member? members)
  | .array items =>
    if items.length = names.length ∨ (cutShort = true ∧ items.length < names.length) then
      some (items.map some ++ List.replicate (names.length - items.length) none)
    else none
  | _ => none

/-- The name of a variant and what it holds. -/
def variant? : Json → Option (String × Option Json)
  | .string name => some (name, none)
  | .object [(name, value)] => some (name, some value)
  | _ => none

/-- The name of a variant that holds nothing. It may also be written with null. -/
def emptyVariant? (j : Json) : Option String :=
  match j.variant? with
  | some (name, none) => some name
  | some (name, some .null) => some name
  | _ => none

/-! ### Simple values -/

/-- A text. -/
def string? : Json → Option String
  | .string text => some text
  | _ => none

/-- A truth value. -/
def boolean? : Json → Option Bool
  | .boolean b => some b
  | _ => none

/-- A list of values, all of one kind. -/
def list? {α : Type} (item? : Json → Option α) : Json → Option (List α)
  | .array items => items.mapM item?
  | _ => none

/-- A whole number without a sign. -/
def uint64? : Json → Option UInt64
  | .number n =>
    if n.whole = true ∧ n.negative = false ∧ n.digits < UInt64.size then some (UInt64.ofNat n.digits)
    else none
  | _ => none

/-- A whole number with or without a sign. Zero with a minus sign is not one. -/
def int64? : Json → Option Int64
  | .number n =>
    if n.whole = true then
      if n.negative = true then
        if 0 < n.digits ∧ Int64.minValue.toInt ≤ -n.digits then some (Int64.ofInt (-n.digits)) else none
      else if n.digits ≤ Int64.maxValue.toInt then some (Int64.ofInt n.digits)
      else none
    else none
  | _ => none

/-- A number as the nearest double, if that is finite. -/
def float? : Json → Option Float
  | .number n => (some (Decimal.nearest n.negative n.digits n.exponent)).filter Float.isFinite
  | _ => none

end EntityQuery.Json
