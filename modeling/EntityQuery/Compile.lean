import EntityQuery.Draft

/-! # Compiling statements

A text is read as a statement, its clauses give events, and the events make a query. The first fault
found is reported and then there is no query. A text may be held to one of the two forms; a text of
the other form is then no statement. -/

namespace EntityQuery

/-- Which statements are let in. -/
inductive Form
  | any
  | only (kind : Kind)
  deriving DecidableEq, Repr

/-- The statement that a text is, if it is one of the given form. -/
def Form.read (form : Form) (text : String) : Except Fault Grammar.Statement :=
  match form with
  | .any => Grammar.anyText.read text
  | .only .select => (Grammar.selectText.read text).map .select
  | .only .delete => (Grammar.deleteText.read text).map .delete

/-! ### Walking through a statement -/

/-- What a walk through a text gives: the form of the statement if it is one, its events, and the
errors known so far. -/
structure Walk where
  kind : Option Kind
  events : List Event
  errors : List CompileError
  deriving Repr

/-- What stands in a text that was read. -/
inductive Part
  | statement (s : Grammar.Statement)
  | endOfText
  deriving DecidableEq, Repr

/-- The statement that a part is, if it is one. -/
def Part.statement? : Part → Option Grammar.Statement
  | .statement s => some s
  | .endOfText => none

/-- The parts of a text of the given form. -/
def Form.parts (form : Form) (text : String) : Except Fault (List Part) :=
  (form.read text).map fun s => [.statement s, .endOfText]

/-- Walks through the first statement among the parts of a text. Errors are added behind those known
before. -/
def Form.walk (form : Form) (text : String) (known : List CompileError) : Walk :=
  match form.parts text with
  | .error f => { kind := none, events := [], errors := known ++ [f.inText text] }
  | .ok parts =>
    match parts.findSome? Part.statement? with
    | some s =>
      { kind := some s.kind
        events := Finding.events s.findings
        errors := known ++ (Finding.faults s.findings).map (·.inText text) }
    | none =>
      let f : Fault := { offset := 0, cause := .noStatement }
      { kind := none, events := [], errors := known ++ [f.inText text] }

/-! ### Making a query -/

/-- The events among some findings, unless there is a fault: then the first one. -/
def Finding.collect : List Finding → Except Fault (List Event)
  | [] => .ok []
  | .ok e :: rest => (collect rest).map (e :: ·)
  | .error f :: _ => .error f

/-- The query made of all that is found in a statement that reads rows. -/
def compileSelectStatement (s : Grammar.Select) : Except Fault SelectQuery :=
  (Finding.collect s.findings).bind fun events => (Draft.ofEvents events).toSelect

/-- The query made of all that is found in a statement that deletes rows. -/
def compileDeleteStatement (s : Grammar.Delete) : Except Fault DeleteQuery :=
  (Finding.collect s.findings).bind fun events => (Draft.ofEvents events).toDelete

/-- The query of a statement, which has the form of the statement. -/
def compileStatement : Grammar.Statement → Except Fault Query
  | .select s => (compileSelectStatement s).map .select
  | .delete s => (compileDeleteStatement s).map .delete

/-- Reads a text with a pattern and makes a query of what was read. -/
def compileText {σ α : Type} (p : Grammar.Pattern σ) (make : σ → Except Fault α) (text : String) :
    Except CompileError α :=
  ((p.read text).bind make).mapError (·.inText text)

/-- Compiles a statement of either form. -/
def compile (text : String) : Except CompileError Query :=
  compileText Grammar.anyText compileStatement text

/-- Compiles a statement that reads rows. -/
def compileSelect (text : String) : Except CompileError SelectQuery :=
  compileText Grammar.selectText compileSelectStatement text

/-- Compiles a statement that deletes rows. -/
def compileDelete (text : String) : Except CompileError DeleteQuery :=
  compileText Grammar.deleteText compileDeleteStatement text

/-- Compiles a text that may be absent. -/
def compileGiven {α : Type} (compiler : String → Except CompileError α) :
    Option String → Except CompileError α
  | some text => compiler text
  | none => .error .absentText

/-- Compiles a statement of a given form. -/
def Form.compile (form : Form) (text : String) : Except CompileError Query :=
  match form with
  | .any => EntityQuery.compile text
  | .only .select => (compileSelect text).map .select
  | .only .delete => (compileDelete text).map .delete

/-- Two compilations that come out alike: equal queries, where floats are compared as numbers, or
equal errors. -/
def sameOutcome : Except CompileError Query → Except CompileError Query → Bool
  | .ok q, .ok r => q == r
  | .error e, .error f => e == f
  | _, _ => false

end EntityQuery
