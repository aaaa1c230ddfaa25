import EntityQuery.Value.Basic

/-! # Conditions

A condition compares one field with one operand. The operator and the operand belong together: a
range takes a pair of bounds, and every other operator a single value (`Condition.Fits`).
`Condition.make?` and everything built on it give fitting conditions only; the fields of the type do
not rule out others. -/

namespace EntityQuery

/-- How a field is compared. -/
inductive Operator
  | equal
  | less
  | lessOrEqual
  | greater
  | greaterOrEqual
  | between
  deriving DecidableEq, Repr

namespace Operator

/-- The sign or word of an operator. -/
def symbol : Operator → String
  | .equal => "="
  | .less => "<"
  | .lessOrEqual => "<="
  | .greater => ">"
  | .greaterOrEqual => ">="
  | .between => "BETWEEN"

/-- The operator with a given sign. The word of a range is none. -/
def ofSymbol? : String → Option Operator
  | "=" => some .equal
  | "<" => some .less
  | "<=" => some .lessOrEqual
  | ">" => some .greater
  | ">=" => some .greaterOrEqual
  | _ => none

/-- The operator takes a pair of bounds. -/
def isRange : Operator → Bool
  | .between => true
  | _ => false

theorem isRange_iff {o : Operator} : o.isRange = true ↔ o = .between := by
  cases o <;> simp [isRange]

theorem ofSymbol?_eq_some_iff {symbol : String} {o : Operator} :
    ofSymbol? symbol = some o ↔ o.isRange = false ∧ symbol = o.symbol := by
  constructor
  · unfold ofSymbol?
    split <;> rintro ⟨⟩ <;> exact ⟨rfl, rfl⟩
  · rintro ⟨h, rfl⟩
    cases o with
    | between => cases h
    | _ => rfl

end Operator

/-- One comparison of a field with an operand. -/
structure Condition where
  field : String
  operator : Operator
  operand : Value
  deriving DecidableEq, BEq, Repr

namespace Condition

/-- A range has a pair of bounds, and nothing else has. -/
def Fits (c : Condition) : Prop :=
  c.operator.isRange = c.operand.isPair

instance (c : Condition) : Decidable c.Fits :=
  inferInstanceAs (Decidable (_ = _))

/-- The condition with the given parts, if operator and operand fit. -/
def make? (field : String) (operator : Operator) (operand : Value) : Option Condition :=
  if operator.isRange = operand.isPair then some { field, operator, operand } else none

theorem fits_of_make? {field : String} {operator : Operator} {operand : Value} {c : Condition}
    (h : make? field operator operand = some c) : c.Fits := by
  grind [make?, Fits]

/-- A condition as it is written in a statement. -/
def write (c : Condition) : List Char :=
  c.field.toList ++ ' ' :: c.operator.symbol.toList ++ ' ' :: c.operand.write

def render (c : Condition) : String :=
  String.ofList c.write

end Condition

end EntityQuery
