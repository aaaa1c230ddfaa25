import EntityQuery.Event

/-! # Drafts of queries

A draft gathers what the clauses of a statement say until the query is made. Of several clauses of
one kind the last one counts; a condition whose operator and operand do not belong together is
passed over, and the word `NOT` changes nothing. A query needs an entity with a name that is not
empty. -/

namespace EntityQuery

/-- What is known of a query so far. -/
structure Draft where
  entity : Option String
  fields : List String
  sorts : List SortKey
  skip : UInt64
  limit : UInt64
  condition : Option Condition
  deriving DecidableEq, Repr

namespace Draft

def empty : Draft :=
  { entity := none, fields := [], sorts := [], skip := 0, limit := 0, condition := none }

/-- Adds what one clause says. -/
def add (d : Draft) : Event → Draft
  | .entity name => { d with entity := some name }
  | .fields names => { d with fields := names }
  | .sort keys => { d with sorts := keys }
  | .skip count => { d with skip := count }
  | .limit count => { d with limit := count }
  | .condition field operator operand _ =>
    { d with condition := (Condition.make? field operator operand).or d.condition }

def ofEvents (events : List Event) : Draft :=
  events.foldl add empty

/-- The name of the entity, which has to be there and not empty. -/
def entityName (d : Draft) : Except Fault String :=
  match d.entity with
  | some name =>
    if name.isEmpty then .error { offset := 0, cause := .missingEntity } else .ok name
  | none => .error { offset := 0, cause := .missingEntity }

/-- The query that reads the rows described. -/
def toSelect (d : Draft) : Except Fault SelectQuery :=
  d.entityName.map fun entity =>
    { entity
      fields := d.fields
      sorts := d.sorts
      skip := d.skip
      limit := d.limit
      condition := d.condition }

/-- The query that deletes the rows described. Fields, sort keys and counts are left out. -/
def toDelete (d : Draft) : Except Fault DeleteQuery :=
  d.entityName.map fun entity => { entity, condition := d.condition }

def toQuery (d : Draft) : Kind → Except Fault Query
  | .select => d.toSelect.map .select
  | .delete => d.toDelete.map .delete

/-- The query of a given form, or a report at the front of an empty text: a draft has no text. -/
def finish (d : Draft) (kind : Kind) : Except CompileError Query :=
  (d.toQuery kind).mapError (·.inText "")

end Draft

end EntityQuery
