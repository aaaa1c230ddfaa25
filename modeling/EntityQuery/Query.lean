import EntityQuery.Condition
import EntityQuery.Text.Listing

/-! # Queries

What a statement asks for, once it is compiled: rows of one entity to read or to delete. A query is
written back as a statement by `render`; clauses that say nothing (no condition, no sort keys, a
skip or a limit of zero) are left out, and a query of all fields has a star. -/

namespace EntityQuery

/-- The two forms of a statement. -/
inductive Kind
  | select
  | delete
  deriving DecidableEq, Repr

/-- Which way a sort key orders. -/
inductive Direction
  | ascending
  | descending
  deriving DecidableEq, Repr

/-- The direction of a sort key that names none. -/
instance : Inhabited Direction := ⟨.ascending⟩

/-- One sort key. -/
structure SortKey where
  field : String
  direction : Direction
  deriving DecidableEq, Repr

namespace SortKey

/-- An ascending sort key. -/
def asc (field : String) : SortKey := { field, direction := .ascending }

/-- A descending sort key. -/
def desc (field : String) : SortKey := { field, direction := .descending }

/-- A sort key as it is written in a statement, always with its direction. -/
def write (s : SortKey) : List Char :=
  match s.direction with
  | .ascending => s.field.toList ++ " ASC".toList
  | .descending => s.field.toList ++ " DESC".toList

def render (s : SortKey) : String :=
  String.ofList s.write

end SortKey

/-- Rows to read. -/
structure SelectQuery where
  entity : String
  /-- The fields to read, all of them when the list is empty. -/
  fields : List String
  /-- The sort keys, the first one most significant. -/
  sorts : List SortKey
  skip : UInt64
  /-- The greatest number of rows, no bound when it is zero. -/
  limit : UInt64
  condition : Option Condition
  deriving DecidableEq, BEq, Repr

/-- Rows to delete. -/
structure DeleteQuery where
  entity : String
  condition : Option Condition
  deriving DecidableEq, BEq, Repr

inductive Query
  | select (query : SelectQuery)
  | delete (query : DeleteQuery)
  deriving DecidableEq, BEq, Repr

/-! ### Writing -/

/-- The clause of a condition, with a space in front. -/
def writeCondition : Option Condition → List Char
  | none => []
  | some c => " WHERE ".toList ++ c.write

/-- The clause of the sort keys, with a space in front. -/
def writeSorts (sorts : List SortKey) : List Char :=
  if sorts.isEmpty then [] else " ORDER BY ".toList ++ Text.commaSeparated (sorts.map SortKey.write)

/-- A clause of a keyword and a count, with a space in front. -/
def writeCount (keyword : String) (count : UInt64) : List Char :=
  if count = 0 then [] else ' ' :: keyword.toList ++ ' ' :: Decimal.writeNat count.toNat

/-- A star for all fields, else their names. -/
def writeFields (fields : List String) : List Char :=
  if fields.isEmpty then ['*'] else Text.commaSeparated (fields.map String.toList)

/-- A query as a statement. Clauses that say nothing are left out. -/
def SelectQuery.write (q : SelectQuery) : List Char :=
  "SELECT ".toList ++ writeFields q.fields ++ " FROM ".toList ++ q.entity.toList ++
    writeCondition q.condition ++ writeSorts q.sorts ++ writeCount "SKIP" q.skip ++
    writeCount "LIMIT" q.limit

def DeleteQuery.write (q : DeleteQuery) : List Char :=
  "DELETE FROM ".toList ++ q.entity.toList ++ writeCondition q.condition

namespace Query

def entity : Query → String
  | .select q => q.entity
  | .delete q => q.entity

def condition : Query → Option Condition
  | .select q => q.condition
  | .delete q => q.condition

def kind : Query → Kind
  | .select _ => .select
  | .delete _ => .delete

def write : Query → List Char
  | .select q => q.write
  | .delete q => q.write

def render (q : Query) : String :=
  String.ofList q.write

end Query

end EntityQuery
