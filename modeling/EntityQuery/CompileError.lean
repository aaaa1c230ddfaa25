import EntityQuery.Decimal.Whole
import EntityQuery.Grammar.Rule
import EntityQuery.Text.Location

/-! # Errors of compilation

A `Fault` says what is wrong and at which byte of a statement; a `CompileError` is the report of it,
with the line, the column and a fragment of the text. -/

namespace EntityQuery

/-- The two kinds of error. -/
inductive CompileError.Kind
  /-- There was no text. -/
  | absent
  /-- The text is no statement. -/
  | malformed
  deriving DecidableEq, Repr

def CompileError.Kind.code : CompileError.Kind → String
  | .absent => "NQL-E001"
  | .malformed => "NQL-E002"

structure CompileError where
  kind : CompileError.Kind
  location : Text.Location
  message : String
  deriving DecidableEq, Repr

namespace CompileError

/-- There is no text to compile. -/
def absentText : CompileError :=
  { kind := .absent
    location := { position := 0, line := 1, column := 1, fragment := "" }
    message := "query is required" }

/-- Something is wrong `position` bytes into a text. -/
def malformedAt (text : String) (position : Nat) (message : String) : CompileError :=
  { kind := .malformed, location := Text.locate text position, message }

def render (e : CompileError) : String :=
  "[" ++ e.kind.code ++ "] " ++ e.message ++ " at line " ++
    String.ofList (Decimal.writeNat e.location.line) ++ ", column " ++
    String.ofList (Decimal.writeNat e.location.column)

end CompileError

/-- What can be wrong with a statement. -/
inductive Fault.Cause
  /-- None of the given parts was found. -/
  | expected (rules : List Grammar.Rule)
  /-- A literal stands for no value. -/
  | unrecognizedLiteral (literal : String)
  /-- A count does not fit 64 bits. -/
  | countOutOfRange (count : String)
  /-- A sign stands for no operator. -/
  | unknownOperator
  /-- There is no statement in the text. -/
  | noStatement
  /-- No entity is named. -/
  | missingEntity
  deriving DecidableEq, Repr

def Fault.Cause.message : Fault.Cause → String
  | .expected rules => "expected " ++ Text.alternatives ((Grammar.Rule.sorted rules).map (·.label))
  | .unrecognizedLiteral literal => "Unrecognized literal: " ++ literal
  | .countOutOfRange count => "Integer out of range: " ++ count
  | .unknownOperator => "Unknown comparison operator"
  | .noStatement => "Empty query"
  | .missingEntity => "Expected entity name"

/-- What is wrong with a statement, and at which byte. -/
structure Fault where
  offset : Nat
  cause : Fault.Cause
  deriving DecidableEq, Repr

/-- The report of a fault in a text. -/
def Fault.inText (f : Fault) (text : String) : CompileError :=
  .malformedAt text f.offset f.cause.message

end EntityQuery
