import EntityQuery.Decimal.Numeral
import EntityQuery.Settings.Document.Text
import EntityQuery.Settings.Node
import EntityQuery.Text.Blank
import EntityQuery.Text.Listing

/-! # Settings in variables

A variable of the environment sets one thing when its name begins with `NQL_`, in any case. The rest
of the name is the path to the setting, with two underscores or a point between its parts. Blanks at
the ends of the name and of the path do not count.

The value is read as a truth value, a number, a text in quotes as in a document, a table in braces
or a list in brackets, with ASCII blanks around each part. Whatever has none of these forms is plain
text. Only a word, which is a number or a plain text, may have other blanks at its ends. -/

namespace EntityQuery.Settings.Variable

/-- What the names of variables begin with. -/
def mark : List Char := "NQL_".toList

/-- A name with a point in place of each two underscores. -/
def pointed : List Char → List Char
  | '_' :: '_' :: cs => '.' :: pointed cs
  | c :: cs => c :: pointed cs
  | [] => []

/-- The parts of a text between points. -/
def parts : List Char → List (List Char)
  | [] => [[]]
  | c :: cs =>
    if c = '.' then [] :: parts cs
    else
      match parts cs with
      | first :: rest => (c :: first) :: rest
      | [] => [[c]]

/-- The path that the name of a variable stands for. A path with an empty part sets nothing. -/
def path? (name : String) : Option (List String) :=
  let cs := Text.trim name.toList
  if Text.equalIgnoringCase (cs.take mark.length) mark then
    let path := parts ((pointed (Text.trim (cs.drop mark.length))).map Char.toLower)
    if path.any List.isEmpty then none else some (path.map String.ofList)
  else none

/-! ### Values -/

/-- The blanks of ASCII, which may stand around the parts of a value. -/
def spaces : List Char :=
  [' ', '\t', '\n', '\x0c', '\r']

/-- The characters that no plain text within a table or a list holds. -/
def isSeparator (c : Char) : Bool :=
  c == ',' || c == '\x7b' || c == '\x7d' || c == '[' || c == ']'

/-- A text without its plus sign. -/
def dropPlus : List Char → List Char
  | '+' :: cs => cs
  | cs => cs

/-- A float: a decimal with a point in it. -/
def float? (cs : List Char) : Option Node :=
  if cs.contains '.' then (Decimal.readDecimal (dropPlus cs)).map .float else none

/-- A whole number of 64 bits, with a sign or without one. -/
def integer? (cs : List Char) : Option Node :=
  match Decimal.readUInt64 (dropPlus cs) with
  | some n => some (.integer n.toNat)
  | none => (Decimal.readInt64 cs).map fun n => .integer n.toInt

/-- The value of a word. -/
def word (cs : List Char) : Node :=
  (float? cs).getD ((integer? cs).getD (.text (String.ofList cs)))

/-- One character in single quotes, after the first. -/
def scanSingle : Text.Scanner Char
  | c :: '\'' :: rest => some (c, rest)
  | _ => none

/-- The key of a member of a table. -/
def scanKey : Text.Scanner String
  | '"' :: cs => (Document.scanBasic cs).map fun (key, rest) => (String.ofList key, rest)
  | cs => Document.scanBareKey cs

mutual

/-- A value with the blanks around it. -/
def scanValue : Nat → Text.Scanner Node
  | 0, _ => none
  | fuel + 1, cs =>
    (scanBare fuel (Text.skip spaces cs)).map fun (value, rest) => (value, Text.skip spaces rest)

/-- A value without blanks in front. -/
def scanBare : Nat → Text.Scanner Node
  | 0, _ => none
  | fuel + 1, cs =>
    match Text.expect "true".toList cs, Text.expect "false".toList cs with
    | some rest, _ => some (.boolean true, rest)
    | none, some rest => some (.boolean false, rest)
    | none, none =>
      match cs with
      | '\x7b' :: rest => (scanMembers fuel rest).map fun (ms, rest) => (.table ms, rest)
      | '[' :: rest => (scanItems fuel rest).map fun (items, rest) => (.list items, rest)
      | '"' :: rest => (Document.scanBasic rest).map fun (body, rest) => (.text (String.ofList body), rest)
      | '\'' :: rest => (scanSingle rest).map fun (c, rest) => (.text (String.singleton c), rest)
      | cs =>
        some (word (Text.trim (cs.takeWhile (!isSeparator ·))), cs.dropWhile (!isSeparator ·))

/-- The items of a list, which may end with a comma as in a document. -/
def scanItems : Nat → Text.Scanner (List Node)
  | 0, _ => none
  | fuel + 1, cs =>
    match cs with
    | ']' :: rest => some ([], rest)
    | cs =>
      (scanValue fuel cs).bind fun (item, rest) =>
        match rest with
        | ',' :: rest => (scanItems fuel rest).map fun (items, rest) => (item :: items, rest)
        | ']' :: rest => some ([item], rest)
        | _ => none

/-- The members of a table up to its closing brace. A comma may stand behind the last one, and of
several members of one name the last counts. -/
def scanMembers : Nat → Text.Scanner Members
  | 0, _ => none
  | fuel + 1, cs =>
    match cs with
    | '\x7d' :: rest => some ([], rest)
    | cs =>
      (scanKey (Text.skip spaces cs)).bind fun (key, rest) =>
        match Text.skip spaces rest with
        | '=' :: rest =>
          (scanValue fuel rest).bind fun (value, rest) =>
            match rest with
            | ',' :: rest =>
              (scanMembers fuel rest).map fun (ms, rest) =>
                (if (ms.lookup key).isSome then ms else (key, value) :: ms, rest)
            | '\x7d' :: rest => some ([(key, value)], rest)
            | _ => none
        | _ => none

end

/-- The value that a variable gives. -/
def value (text : String) : Node :=
  let cs := text.toList
  match scanValue (3 * cs.length + 3) cs with
  | some (node, []) => node
  | _ => .text text

/-- The tree of all variables. Later variables are laid over earlier ones. -/
def tree (environment : List (String × String)) : Node :=
  environment.foldl
    (fun lower (name, text) =>
      match path? name with
      | some path => ((value text).atPath path).over lower
      | none => lower)
    (.table [])

end EntityQuery.Settings.Variable
