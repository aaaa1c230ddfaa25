import EntityQuery.Grammar.Pattern
import EntityQuery.Query

/-! # The grammar of statements

A statement as it was written: its words with their places, before signs, literals and counts are
read.

    select   = SELECT ("*" | name {"," name}) FROM name [where] {order | skip | limit}
    delete   = DELETE FROM name [where]
    where    = WHERE [NOT] (name BETWEEN value AND value | name sign value)
    order    = ORDER BY name [ASC | DESC] {"," name [ASC | DESC]}
    skip     = SKIP count
    limit    = LIMIT count
    sign     = "<=" | ">=" | "<" | ">" | "="
    value    = quoted | number | TRUE | FALSE | NULL -/

namespace EntityQuery.Grammar

/-- A comparison of a field with a literal, or with two bounds. -/
inductive Test
  | comparison (field sign operand : Token)
  | range (field low high : Token)
  deriving DecidableEq, Repr

/-- A test, and whether the word `NOT` stands before it. -/
structure Filter where
  negated : Bool
  test : Test
  deriving DecidableEq, Repr

/-- A field to sort by, ascending when no direction is given. -/
structure OrderItem where
  field : Token
  direction : Direction
  deriving DecidableEq, Repr

/-- A clause after the condition. Each kind may occur any number of times, in any order. -/
inductive Tail
  | order (items : List OrderItem)
  | skip (count : Token)
  | limit (count : Token)
  deriving DecidableEq, Repr

/-- A statement that reads rows. The list of fields is empty for a star. -/
structure Select where
  fields : List Token
  entity : Token
  filter : Option Filter
  tail : List Tail
  deriving DecidableEq, Repr

structure Delete where
  entity : Token
  filter : Option Filter
  deriving DecidableEq, Repr

inductive Statement
  | select (s : Select)
  | delete (s : Delete)
  deriving DecidableEq, Repr

/-! ### Parts -/

def keyword (k : Keyword) : Pattern Token :=
  .word (.keyword k)

def name : Pattern Token :=
  .word .name

/-- A star or the names of fields. -/
def fields : Pattern (List Token) :=
  .named .fields (.orElse (.named .allFields ((Pattern.symbol "*").map fun _ => [])) name.listed)

def entity : Pattern Token :=
  .named .entity name

def value : Pattern Token :=
  .named .value
    ((Pattern.word .quoted).orElse ((Pattern.word .number).orElse
      ((Pattern.word .boolean).orElse (Pattern.word .null))))

/-- The sign of a comparison. A sign stands behind those that begin with it, so that the longest one
is found. -/
def comparisonSign : Pattern Token :=
  .named .comparisonSign
    ((Pattern.symbol "<=").orElse ((Pattern.symbol ">=").orElse
      ((Pattern.symbol "<").orElse ((Pattern.symbol ">").orElse (.symbol "=")))))

def comparison : Pattern Test :=
  .named .comparison
    ((name.seq (comparisonSign.seq value)).map fun (field, sign, operand) =>
      .comparison field sign operand)

def range : Pattern Test :=
  .named .range
    ((name.seq ((keyword .between).andThen (value.seq ((keyword .and).andThen value)))).map
      fun (field, low, high) => .range field low high)

/-- The word that turns a condition round. -/
def negation : Pattern Unit :=
  .named .negation ((keyword .not).map fun _ => ())

/-- A test with the word `NOT` before it or without. -/
def condition : Pattern Filter :=
  .named .condition
    ((negation.optional.seq (range.orElse comparison)).map fun (not, test) =>
      { negated := not.isSome, test })

def whereClause : Pattern Filter :=
  .named .whereClause ((keyword .whereWord).andThen condition)

def direction : Pattern Direction :=
  .named .direction
    (((keyword .asc).map fun _ => .ascending).orElse ((keyword .desc).map fun _ => .descending))

def orderItem : Pattern OrderItem :=
  .named .orderItem
    ((name.seq direction.optional).map fun (field, direction) =>
      { field, direction := direction.getD default })

def orderClause : Pattern Tail :=
  .named .orderClause
    (((keyword .order).andThen ((keyword .byWord).andThen orderItem.listed)).map .order)

def skipClause : Pattern Tail :=
  .named .skipClause (((keyword .skip).andThen (.word .count)).map .skip)

def limitClause : Pattern Tail :=
  .named .limitClause (((keyword .limit).andThen (.word .count)).map .limit)

/-! ### Statements -/

def select : Pattern Select :=
  .named .selectStatement
    (((keyword .select).andThen (fields.seq ((keyword .fromWord).andThen
      (entity.seq (whereClause.optional.seq
        (orderClause.orElse (skipClause.orElse limitClause)).many))))).map
      fun (fields, entity, filter, tail) => { fields, entity, filter, tail })

def delete : Pattern Delete :=
  .named .deleteStatement
    (((keyword .delete).andThen ((keyword .fromWord).andThen
      (entity.seq whereClause.optional))).map
      fun (entity, filter) => { entity, filter })

/-- A pattern that takes the whole text, with layout at both ends. -/
def whole {α : Type} (rule : Rule) (p : Pattern α) : Pattern α :=
  .named rule (Pattern.nothing.andThen (p.followedBy (.named .endOfInput .finish)))

/-- A text that is one statement of either form. -/
def anyText : Pattern Statement :=
  whole .query ((select.map .select).orElse (delete.map .delete))

/-- A text that is one statement that reads rows. -/
def selectText : Pattern Select :=
  whole .selectQuery select

/-- A text that is one statement that deletes rows. -/
def deleteText : Pattern Delete :=
  whole .deleteQuery delete

end EntityQuery.Grammar
