import EntityQuery.Settings.Document.Scalar
import EntityQuery.Settings.Document.Table
import EntityQuery.Settings.Document.Text

/-! # Reading a settings document

A document in the TOML format: assignments of keys, headers of tables and of lists of tables, one to
a line. It is read in two steps: the text into its sections, and the sections into a tree. -/

namespace EntityQuery.Settings.Document

/-! ### Keys -/

/-- One part of a key. -/
def scanSimpleKey : Text.Scanner String
  | '"' :: cs => (scanBasic cs).map fun (key, rest) => (String.ofList key, rest)
  | '\'' :: cs => (scanLiteral cs).map fun (key, rest) => (String.ofList key, rest)
  | cs => scanBareKey cs

/-- How deep lists and inline tables may be nested, and how many parts a key may have. -/
def nestingLimit : Nat := 79

/-- The parts of a key with points between them, and the blanks around it. -/
def scanParts : Nat → Text.Scanner (List String)
  | 0, _ => none
  | fuel + 1, cs =>
    (scanSimpleKey (Text.skip spaces cs)).bind fun (part, rest) =>
      match Text.skip spaces rest with
      | '.' :: rest => (scanParts fuel rest).map fun (parts, rest) => (part :: parts, rest)
      | rest => some ([part], rest)

/-- A key with points between its parts, and the blanks around it. -/
def scanKey (fuel : Nat) : Text.Scanner (List String) := fun cs =>
  (scanParts fuel cs).filter fun (parts, _) => parts.length ≤ nestingLimit

/-! ### Values -/

mutual

/-- A value, nested at most `level` deep. -/
def scanValue : Nat → Nat → Text.Scanner Node
  | 0, _, _ => none
  | fuel + 1, level, cs =>
    match cs with
    | '"' :: '"' :: '"' :: rest =>
      (scanLines false (skipFirstNewline rest)).map fun (body, rest) =>
        (.text (String.ofList body), rest)
    | '"' :: rest => (scanBasic rest).map fun (body, rest) => (.text (String.ofList body), rest)
    | '\'' :: '\'' :: '\'' :: rest =>
      (scanLiteralLines (skipFirstNewline rest)).map fun (body, rest) =>
        (.text (String.ofList body), rest)
    | '\'' :: rest => (scanLiteral rest).map fun (body, rest) => (.text (String.ofList body), rest)
    | '[' :: rest =>
      if level = 0 then none
      else (scanItems fuel (level - 1) rest).map fun (items, rest) => (.list items, rest)
    | '\x7b' :: rest =>
      if level = 0 then none
      else
        match Text.skip spaces rest with
        | '\x7d' :: rest => some (.table [], rest)
        | rest =>
          (scanAssignments fuel (level - 1) rest).bind fun (assignments, rest) =>
            (assignAll assignments []).map fun items => (.table (itemsToMembers items), rest)
    | cs =>
      let (word, rest) := takeScalar cs
      (scalar? word).map fun node => (node, rest)

/-- The items of a list up to its closing bracket. A comma may stand behind the last one. -/
def scanItems : Nat → Nat → Text.Scanner (List Node)
  | 0, _, _ => none
  | fuel + 1, level, cs =>
    match skipTrivia false cs with
    | ']' :: rest => some ([], rest)
    | cs =>
      (scanValue fuel level cs).bind fun (item, rest) =>
        match skipTrivia false rest with
        | ',' :: rest => (scanItems fuel level rest).map fun (items, rest) => (item :: items, rest)
        | ']' :: rest => some ([item], rest)
        | _ => none

/-- A key, an equals sign and a value. -/
def scanAssignment : Nat → Nat → Text.Scanner Assignment
  | 0, _, _ => none
  | fuel + 1, level, cs =>
    (scanKey (cs.length + 1) cs).bind fun (key, rest) =>
      match rest with
      | '=' :: rest =>
        (scanValue fuel level (Text.skip spaces rest)).map fun (value, rest) => ((key, value), rest)
      | _ => none

/-- The assignments of an inline table up to its closing brace. -/
def scanAssignments : Nat → Nat → Text.Scanner (List Assignment)
  | 0, _, _ => none
  | fuel + 1, level, cs =>
    (scanAssignment fuel level cs).bind fun (assignment, rest) =>
      match Text.skip spaces rest with
      | ',' :: rest =>
        (scanAssignments fuel level rest).map fun (assignments, rest) =>
          (assignment :: assignments, rest)
      | '\x7d' :: rest => some ([assignment], rest)
      | _ => none

end

/-! ### Lines -/

/-- What a line says. -/
inductive Line
  | blank
  | assignment (a : Assignment)
  | tableHeader (path : List String)
  | listHeader (path : List String)

/-- A line without its end. -/
def scanLine (fuel : Nat) (cs : List Char) : Option (Line × List Char) :=
  match Text.skip spaces cs with
  | [] => some (.blank, [])
  | '[' :: '[' :: rest =>
    (scanKey fuel rest).bind fun (path, rest) =>
      match rest with
      | ']' :: ']' :: rest => some (.listHeader path, rest)
      | _ => none
  | '[' :: rest =>
    (scanKey fuel rest).bind fun (path, rest) =>
      match rest with
      | ']' :: rest => some (.tableHeader path, rest)
      | _ => none
  | c :: rest =>
    if c = '#' ∨ c = '\n' ∨ c = '\r' then some (.blank, c :: rest)
    else
      (scanAssignment fuel nestingLimit (c :: rest)).map fun (a, rest) => (.assignment a, rest)

/-- The lines of a text. -/
def scanLinesOf : Nat → List Char → Option (List Line)
  | 0, _ => none
  | fuel + 1, cs =>
    if cs.isEmpty then some []
    else
      (scanLine (2 * cs.length + 2) cs).bind fun (line, rest) =>
        (endLine? rest).bind fun rest => (scanLinesOf fuel rest).map (line :: ·)

/-! ### Sections -/

/-- The assignments before the first header, and the headers with the assignments after each. -/
def sections : List Line → List Assignment × List (Line × List Assignment)
  | [] => ([], [])
  | line :: lines =>
    let (assignments, rest) := sections lines
    match line with
    | .blank => (assignments, rest)
    | .assignment a => (a :: assignments, rest)
    | header => ([], (header, assignments) :: rest)

/-- Adds a section to the tables read so far. -/
def addSection (items : Items) : Line × List Assignment → Option Items
  | (.tableHeader path, assignments) => alter (fillTable assignments) path items
  | (.listHeader path, assignments) => alter (addTable assignments) path items
  | _ => none

/-- The tables of a document. -/
def assemble (lines : List Line) : Option Items :=
  let (first, rest) := sections lines
  (assignAll first []).bind fun items => rest.foldlM addSection items

/-- A text without the mark of its byte order. -/
def skipByteOrderMark : List Char → List Char
  | '\uFEFF' :: cs => cs
  | cs => cs

/-- The members of the table that a document stands for. -/
def read (text : String) : Option Members :=
  let cs := skipByteOrderMark text.toList
  ((scanLinesOf (cs.length + 1) cs).bind assemble).map itemsToMembers

end EntityQuery.Settings.Document
