import EntityQuery.Grammar.Lexeme

/-! # Names of rules

What a place of the grammar is called when a statement that lacks it is refused. Several names are
listed in the order of `Rule.inOrder`, each once. -/

namespace EntityQuery.Grammar

/-- The parts of a statement that have a name. -/
inductive Rule
  | endOfInput
  | word (l : Lexeme)
  | query
  | selectQuery
  | deleteQuery
  | selectStatement
  | deleteStatement
  | fields
  | allFields
  | entity
  | whereClause
  | condition
  | negation
  | comparison
  | range
  | comparisonSign
  | orderClause
  | orderItem
  | direction
  | skipClause
  | limitClause
  | value
  deriving DecidableEq, Repr

namespace Rule

/-- All names, in the order in which a message lists them. -/
def inOrder : List Rule :=
  .endOfInput :: Keyword.all.map (fun k => .word (.keyword k)) ++
    [.query, .selectQuery, .deleteQuery, .selectStatement, .deleteStatement, .fields, .allFields,
      .entity, .word .name, .whereClause, .condition, .negation, .comparison, .range,
      .comparisonSign, .orderClause, .orderItem, .direction, .skipClause, .limitClause,
      .word .count, .value, .word .quoted, .word .number, .word .boolean, .word .null]

theorem mem_inOrder (r : Rule) : r ∈ inOrder := by
  rcases r with _ | l | _
  case word => rcases l with k | _ <;> first | (cases k <;> decide) | decide
  all_goals decide

/-- How a message names a rule. -/
def label : Rule → String
  | .endOfInput => "EOI"
  | .word (.keyword k) => "kw_" ++ k.word
  | .word .name => "name"
  | .word .count => "integer"
  | .word .quoted => "string"
  | .word .number => "number"
  | .word .boolean => "boolean"
  | .word .null => "null_value"
  | .query => "query"
  | .selectQuery => "select_query"
  | .deleteQuery => "delete_query"
  | .selectStatement => "select_stmt"
  | .deleteStatement => "delete_stmt"
  | .fields => "fields"
  | .allFields => "all_fields"
  | .entity => "entity"
  | .whereClause => "where_clause"
  | .condition => "condition"
  | .negation => "negation"
  | .comparison => "compare_expr"
  | .range => "between_expr"
  | .comparisonSign => "compare_op"
  | .orderClause => "order_clause"
  | .orderItem => "order_item"
  | .direction => "direction"
  | .skipClause => "skip_clause"
  | .limitClause => "limit_clause"
  | .value => "value"

/-- The names that occur among some rules, each once and in order. -/
def sorted (rules : List Rule) : List Rule :=
  inOrder.filter (rules.contains ·)

theorem mem_sorted {r : Rule} {rules : List Rule} : r ∈ sorted rules ↔ r ∈ rules := by
  simp [sorted, mem_inOrder]

end Rule

end EntityQuery.Grammar
