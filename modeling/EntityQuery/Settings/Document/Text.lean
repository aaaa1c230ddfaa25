import EntityQuery.Text.Escape
import EntityQuery.Text.Front

/-! # Characters of a settings document

Blanks, line ends, comments, keys without quotes and the four kinds of quoted text in a document in the TOML format. -/

namespace EntityQuery.Settings.Document

/-- The blanks within a line. -/
def spaces : List Char :=
  [' ', '\t']

/-- A character that may stand neither in a comment nor in quotes. -/
def isControl (c : Char) : Bool :=
  (c.toNat < 0x20 && c != '\t') || c.toNat == 0x7F

/-- The text after a line end, if it begins with one. -/
def newline? : List Char → Option (List Char)
  | '\n' :: cs => some cs
  | '\r' :: '\n' :: cs => some cs
  | _ => none

/-- The text after a comment, if it begins with one. -/
def skipComment : List Char → List Char
  | '#' :: cs => cs.dropWhile (!isControl ·)
  | cs => cs

/-- The text after the end of the line. Only blanks and a comment may stand before it, and the last
line need not have one. -/
def endLine? (cs : List Char) : Option (List Char) :=
  match skipComment (Text.skip spaces cs) with
  | [] => some []
  | c :: cs => newline? (c :: cs)

/-- The text after blanks, line ends and comments. -/
def skipTrivia (inComment : Bool) : List Char → List Char
  | [] => []
  | '\r' :: '\n' :: cs => skipTrivia false cs
  | c :: cs =>
    if c = '\n' then skipTrivia false cs
    else if inComment then
      if isControl c then c :: cs else skipTrivia true cs
    else if spaces.contains c then skipTrivia false cs
    else if c = '#' then skipTrivia true cs
    else c :: cs

/-- A character of a key without quotes. -/
def isBareKeyChar (c : Char) : Bool :=
  c.isAlphanum || c == '_' || c == '-'

/-- A key without quotes. -/
def scanBareKey : Text.Scanner String := fun cs =>
  let key := cs.takeWhile isBareKeyChar
  if key.isEmpty then none else some (String.ofList key, cs.dropWhile isBareKeyChar)

/-! ### Quoted text -/

/-- Text in double quotes, after the first. -/
def scanBasic : Text.Scanner (List Char)
  | [] => none
  | '"' :: cs => some ([], cs)
  | '\\' :: 'u' :: a :: b :: c :: d :: cs =>
    (Text.codePoint? [a, b, c, d]).bind fun x =>
      (scanBasic cs).map fun (body, rest) => (x :: body, rest)
  | '\\' :: 'U' :: a :: b :: c :: d :: e :: f :: g :: h :: cs =>
    (Text.codePoint? [a, b, c, d, e, f, g, h]).bind fun x =>
      (scanBasic cs).map fun (body, rest) => (x :: body, rest)
  | '\\' :: c :: cs =>
    (Text.shortEscape? c).bind fun x => (scanBasic cs).map fun (body, rest) => (x :: body, rest)
  | c :: cs =>
    if isControl c || c == '\\' then none
    else (scanBasic cs).map fun (body, rest) => (c :: body, rest)

/-- Text in single quotes, after the first. -/
def scanLiteral (cs : List Char) : Option (List Char × List Char) :=
  let inside (c : Char) : Bool := c != '\'' && !isControl c
  match cs.dropWhile inside with
  | '\'' :: rest => some (cs.takeWhile inside, rest)
  | _ => none

/-- Text of several lines in three double quotes, after the first three. A backslash at the end of a
line takes away all blanks and line ends up to the next other character (`trimming`). Up to two more
quotes may stand before the last three. -/
def scanLines (trimming : Bool) : Text.Scanner (List Char)
  | [] => none
  | '"' :: '"' :: '"' :: '"' :: '"' :: cs => some (['"', '"'], cs)
  | '"' :: '"' :: '"' :: '"' :: cs => some (['"'], cs)
  | '"' :: '"' :: '"' :: cs => some ([], cs)
  | '\r' :: '\n' :: cs =>
    if trimming then scanLines true cs
    else (scanLines false cs).map fun (body, rest) => ('\n' :: body, rest)
  | '\\' :: 'u' :: a :: b :: c :: d :: cs =>
    (Text.codePoint? [a, b, c, d]).bind fun x =>
      (scanLines false cs).map fun (body, rest) => (x :: body, rest)
  | '\\' :: 'U' :: a :: b :: c :: d :: e :: f :: g :: h :: cs =>
    (Text.codePoint? [a, b, c, d, e, f, g, h]).bind fun x =>
      (scanLines false cs).map fun (body, rest) => (x :: body, rest)
  | '\\' :: c :: cs =>
    if (newline? (Text.skip spaces (c :: cs))).isSome then scanLines true (c :: cs)
    else
      (Text.shortEscape? c).bind fun x =>
        (scanLines false cs).map fun (body, rest) => (x :: body, rest)
  | c :: cs =>
    if trimming && (spaces.contains c || c == '\n') then scanLines true cs
    else if (isControl c && c != '\n') || c == '\\' then none
    else (scanLines false cs).map fun (body, rest) => (c :: body, rest)

/-- Text of several lines in three single quotes, after the first three. -/
def scanLiteralLines : Text.Scanner (List Char)
  | [] => none
  | '\'' :: '\'' :: '\'' :: '\'' :: '\'' :: cs => some (['\'', '\''], cs)
  | '\'' :: '\'' :: '\'' :: '\'' :: cs => some (['\''], cs)
  | '\'' :: '\'' :: '\'' :: cs => some ([], cs)
  | '\r' :: '\n' :: cs => (scanLiteralLines cs).map fun (body, rest) => ('\n' :: body, rest)
  | c :: cs =>
    if isControl c && c != '\n' then none
    else (scanLiteralLines cs).map fun (body, rest) => (c :: body, rest)

/-- The text after a line end directly behind the first three quotes, which does not count. -/
def skipFirstNewline (cs : List Char) : List Char :=
  (newline? cs).getD cs

end EntityQuery.Settings.Document
