import EntityQuery.Json.Record
import EntityQuery.Query

/-! # Queries in JSON

The JSON form of a query and of its parts, and reading it back. A record that is read may have its
members in any order, unknown ones among them, or be the array of its fields; a condition that is
absent may be left out of an object. Reading does not ask whether an operator and its operand belong
together, nor whether an entity has a name. -/

namespace EntityQuery

/-! ### Writing -/

/-- A double in the fewest digits that read back, null when it is not finite. -/
def Json.ofFloat (x : Float) : Json :=
  match Decimal.classify x with
  | .finite d =>
    let (digits, exponent) := d.shortest
    .number { negative := d.negative, digits, exponent, whole := false }
  | _ => .null

/-- A variant that holds something. -/
def Json.tagged (name : String) (content : Json) : Json :=
  .object [(name, content)]

namespace Number

def toJson : Number → Json
  | .integer n => .tagged "Integer" (.ofInt n.toInt)
  | .float x => .tagged "Float" (.ofFloat x)

end Number

def Value.toJson : Value → Json
  | .string text => .tagged "String" (.string text)
  | .number n => .tagged "Number" n.toJson
  | .boolean b => .tagged "Boolean" (.boolean b)
  | .null => .string "Null"
  | .pair first second => .tagged "Pair" (.array [first.toJson, second.toJson])

def Operator.name : Operator → String
  | .equal => "Equals"
  | .less => "LesserThan"
  | .lessOrEqual => "LesserEqualsThan"
  | .greater => "GreaterThan"
  | .greaterOrEqual => "GreaterEqualsThan"
  | .between => "Between"

def Direction.name : Direction → String
  | .ascending => "Ascending"
  | .descending => "Descending"

def Condition.toJson (c : Condition) : Json :=
  .object [("field", .string c.field), ("operator", .string c.operator.name),
    ("operand", c.operand.toJson)]

def SortKey.toJson (s : SortKey) : Json :=
  .object [("field", .string s.field), ("direction", .string s.direction.name)]

/-- The JSON form of a condition, null when there is none. -/
def conditionToJson (c : Option Condition) : Json :=
  c.elim .null Condition.toJson

def SelectQuery.toJson (q : SelectQuery) : Json :=
  .object [("entity", .string q.entity), ("fields", .array (q.fields.map .string)),
    ("sorts", .array (q.sorts.map SortKey.toJson)), ("skip", .ofInt q.skip.toNat),
    ("limit", .ofInt q.limit.toNat), ("where", conditionToJson q.condition)]

def DeleteQuery.toJson (q : DeleteQuery) : Json :=
  .object [("entity", .string q.entity), ("where", conditionToJson q.condition)]

def Query.toJson : Query → Json
  | .select q => .tagged "Select" q.toJson
  | .delete q => .tagged "Delete" q.toJson

/-! ### Reading -/

namespace Number

def ofJson? (j : Json) : Option Number :=
  match j.variant? with
  | some ("Integer", some content) => content.int64?.map .integer
  | some ("Float", some content) => content.float?.map .float
  | _ => none

end Number

def Value.ofJson? : Json → Option Value
  | .string "Null" => some .null
  | .object [(name, content)] =>
    match name, content with
    | "String", content => content.string?.map .string
    | "Number", content => (Number.ofJson? content).map .number
    | "Boolean", content => content.boolean?.map .boolean
    | "Null", .null => some .null
    | "Pair", .array [first, second] =>
      (Value.ofJson? first).bind fun a => (Value.ofJson? second).map fun b => .pair a b
    | _, _ => none
  | _ => none

def Operator.all : List Operator :=
  [.equal, .less, .lessOrEqual, .greater, .greaterOrEqual, .between]

def Operator.ofJson? (j : Json) : Option Operator :=
  j.emptyVariant?.bind fun name => Operator.all.find? (·.name == name)

def Direction.ofJson? (j : Json) : Option Direction :=
  j.emptyVariant?.bind fun name => [Direction.ascending, .descending].find? (·.name == name)

def Condition.ofJson? (j : Json) : Option Condition :=
  match j.fields? false ["field", "operator", "operand"] with
  | some [some field, some operator, some operand] => do
    let field ← field.string?
    let operator ← Operator.ofJson? operator
    let operand ← Value.ofJson? operand
    some { field, operator, operand }
  | _ => none

def SortKey.ofJson? (j : Json) : Option SortKey :=
  match j.fields? false ["field", "direction"] with
  | some [some field, some direction] => do
    let field ← field.string?
    let direction ← Direction.ofJson? direction
    some { field, direction }
  | _ => none

/-- The condition of a query: none when it is left out or null. -/
def conditionOfJson? : Option Json → Option (Option Condition)
  | none => some none
  | some .null => some none
  | some j => (Condition.ofJson? j).map some

/-- Of a query that reads rows, all members have to be there but the condition. -/
def SelectQuery.ofJson? (j : Json) : Option SelectQuery :=
  match j.fields? false ["entity", "fields", "sorts", "skip", "limit", "where"] with
  | some [some entity, some fields, some sorts, some skip, some limit, condition] => do
    let entity ← entity.string?
    let fields ← fields.list? Json.string?
    let sorts ← sorts.list? SortKey.ofJson?
    let skip ← skip.uint64?
    let limit ← limit.uint64?
    let condition ← conditionOfJson? condition
    some { entity, fields, sorts, skip, limit, condition }
  | _ => none

/-- Of a query that deletes rows, the entity has to be there. -/
def DeleteQuery.ofJson? (j : Json) : Option DeleteQuery :=
  match j.fields? false ["entity", "where"] with
  | some [some entity, condition] => do
    let entity ← entity.string?
    let condition ← conditionOfJson? condition
    some { entity, condition }
  | _ => none

/-- A query stands under the name of its form. -/
def Query.ofJson? (j : Json) : Option Query :=
  match j.variant? with
  | some ("Select", some content) => (SelectQuery.ofJson? content).map .select
  | some ("Delete", some content) => (DeleteQuery.ofJson? content).map .delete
  | _ => none

end EntityQuery
