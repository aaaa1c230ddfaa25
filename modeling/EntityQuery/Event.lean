import EntityQuery.CompileError
import EntityQuery.Grammar.Statement
import EntityQuery.Value.Literal

/-! # Events of a statement

A statement that fits the grammar is read clause by clause, in the order in which it was written.
Each clause gives an event with its contents, or faults: one for each literal that stands for no
value, for each sign that stands for no operator and for each count that is too large. A clause with
a fault gives no event, and the clauses after it are still read. -/

namespace EntityQuery

/-- What one clause of a statement says. -/
inductive Event
  | entity (name : String)
  | fields (names : List String)
  | sort (keys : List SortKey)
  | skip (count : UInt64)
  | limit (count : UInt64)
  | condition (field : String) (operator : Operator) (operand : Value) (negated : Bool)
  deriving DecidableEq, BEq, Repr

/-- Something found in a statement: an event, or a fault in its place. -/
abbrev Finding := Except Fault Event

namespace Finding

def events (findings : List Finding) : List Event :=
  findings.filterMap fun
    | .ok e => some e
    | .error _ => none

def faults (findings : List Finding) : List Fault :=
  findings.filterMap fun
    | .ok _ => none
    | .error f => some f

/-- The event made of two readings, or the faults of both in the order of the text. -/
def ofBoth {α β : Type} (make : α → β → Event) : Except Fault α → Except Fault β → List Finding
  | .ok a, .ok b => [.ok (make a b)]
  | .ok _, .error e => [.error e]
  | .error e, .ok _ => [.error e]
  | .error e, .error e' => [.error e, .error e']

end Finding

namespace Grammar

def Token.value (t : Token) : Except Fault Value :=
  match Value.ofLiteral? t.text with
  | some v => .ok v
  | none => .error { offset := t.offset, cause := .unrecognizedLiteral t.text }

def Token.count (t : Token) : Except Fault UInt64 :=
  match Decimal.readUInt64 t.text.toList with
  | some n => .ok n
  | none => .error { offset := t.offset, cause := .countOutOfRange t.text }

def Token.operator (t : Token) : Except Fault Operator :=
  match Operator.ofSymbol? t.text with
  | some o => .ok o
  | none => .error { offset := t.offset, cause := .unknownOperator }

/-- The event of a condition, or the faults of its sign and operands in the order of the text. -/
def Filter.findings (f : Filter) : List Finding :=
  match f.test with
  | .comparison field sign operand =>
    Finding.ofBoth (fun o v => .condition field.text o v f.negated) sign.operator operand.value
  | .range field low high =>
    Finding.ofBoth (fun l h => .condition field.text .between (.pair l h) f.negated) low.value high.value

def OrderItem.key (i : OrderItem) : SortKey :=
  { field := i.field.text, direction := i.direction }

/-- The event of a clause, or its fault. -/
def Tail.finding : Tail → Finding
  | .order items => .ok (.sort (items.map OrderItem.key))
  | .skip count => count.count.map .skip
  | .limit count => count.count.map .limit

/-- The event of the entity. Names have no blanks around them to trim; see `Text.trim`. -/
def entityFinding (name : Token) : Finding :=
  .ok (.entity (String.ofList (Text.trim name.text.toList)))

/-- The findings of a condition, if there is one. -/
def filterFindings (filter : Option Filter) : List Finding :=
  filter.elim [] Filter.findings

/-- What is found in a statement that reads rows, from its fields to its last clause. -/
def Select.findings (s : Select) : List Finding :=
  .ok (.fields (s.fields.map Token.text)) :: entityFinding s.entity ::
    filterFindings s.filter ++ s.tail.map Tail.finding

/-- What is found in a statement that deletes rows: the entity and at most one condition. -/
def Delete.findings (s : Delete) : List Finding :=
  entityFinding s.entity :: filterFindings s.filter

/-- What is found in a statement, whichever form it has. -/
def Statement.findings : Statement → List Finding
  | .select s => s.findings
  | .delete s => s.findings

def Statement.kind : Statement → Kind
  | .select _ => .select
  | .delete _ => .delete

/-- Matches a pattern against a text. A text that does not match has one fault, at the furthest
place where a named part failed. -/
def Pattern.read {α : Type} (p : Pattern α) (text : String) : Except Fault α :=
  match p.run (Cursor.start text) Attempts.none with
  | (some (a, _), _) => .ok a
  | (none, attempts) =>
    .error { offset := attempts.position, cause := .expected (Rule.sorted attempts.rules) }

end Grammar

end EntityQuery
