import EntityQuery.Text.Front
import EntityQuery.Text.Listing

/-! # Words of a statement

The smallest parts of a statement that are looked for by name: keywords, names, counts and the four
kinds of literal. `Lexeme.scan` takes one from the front of a text and leaves the rest; inside a
word nothing is skipped. A word that ends in a letter, a digit or an underscore may not be followed
by another one of these, so `SELECTED` does not begin with the keyword. -/

namespace EntityQuery.Grammar

/-- The reserved words. -/
inductive Keyword
  | select
  | delete
  | fromWord
  | whereWord
  | order
  | byWord
  | asc
  | desc
  | skip
  | limit
  | not
  | between
  | and
  deriving DecidableEq, Repr

namespace Keyword

/-- The reserved words in the order in which they are listed. -/
def all : List Keyword :=
  [.select, .delete, .fromWord, .whereWord, .order, .byWord, .asc, .desc, .skip, .limit, .not,
    .between, .and]

theorem mem_all (k : Keyword) : k ∈ all := by
  cases k <;> decide

def word : Keyword → String
  | .select => "select"
  | .delete => "delete"
  | .fromWord => "from"
  | .whereWord => "where"
  | .order => "order"
  | .byWord => "by"
  | .asc => "asc"
  | .desc => "desc"
  | .skip => "skip"
  | .limit => "limit"
  | .not => "not"
  | .between => "between"
  | .and => "and"

end Keyword

/-- A letter, a digit or an underscore, all of ASCII. -/
def isWordChar (c : Char) : Bool :=
  c.isAlphanum || c == '_'

/-- What a name may begin with. -/
def isNameStart (c : Char) : Bool :=
  c.isAlpha || c == '_'

/-- What a name may go on with. -/
def isNameChar (c : Char) : Bool :=
  isWordChar c || c == '.'

/-- What separates the words of a statement. -/
def isLayout (c : Char) : Bool :=
  c == ' ' || c == '\t' || c == '\r' || c == '\n'

/-- The text goes on with a character of a word. -/
def startsWord : List Char → Bool
  | [] => false
  | c :: _ => isWordChar c

/-- The given letters in any case, not followed by a character of a word. -/
def scanWord (word : List Char) : Text.Scanner (List Char) := fun cs =>
  let front := cs.take word.length
  let rest := cs.drop word.length
  if Text.equalIgnoringCase front word && !startsWord rest then some (front, rest) else none

def startsKeyword (cs : List Char) : Bool :=
  Keyword.all.any fun k => (scanWord k.word.toList cs).isSome

/-- A name: a letter or an underscore, then letters, digits, underscores and points, as many as
there are. A text that begins with a keyword begins with no name. -/
def scanName : Text.Scanner (List Char) := fun cs =>
  if startsKeyword cs then none
  else
    match cs with
    | [] => none
    | c :: rest =>
      if isNameStart c then some (c :: rest.takeWhile isNameChar, rest.dropWhile isNameChar)
      else none

/-- One or more digits. -/
def scanDigits : Text.Scanner (List Char) := fun cs =>
  match cs.takeWhile Char.isDigit with
  | [] => none
  | ds => some (ds, cs.dropWhile Char.isDigit)

/-- A count: digits, not followed by a character of a word. -/
def scanCount : Text.Scanner (List Char) := fun cs =>
  match scanDigits cs with
  | some (ds, rest) => if startsWord rest then none else some (ds, rest)
  | none => none

/-- A quoted text after its first quote, up to the next quote without a backslash. -/
def scanQuotedRest (quote : Char) : Text.Scanner (List Char)
  | [] => none
  | '\\' :: c :: cs => (scanQuotedRest quote cs).map fun (body, rest) => ('\\' :: c :: body, rest)
  | c :: cs =>
    if c = quote then some ([c], cs)
    else (scanQuotedRest quote cs).map fun (body, rest) => (c :: body, rest)

/-- A quoted text in single or double quotes. -/
def scanQuoted : Text.Scanner (List Char)
  | '\'' :: cs => (scanQuotedRest '\'' cs).map fun (body, rest) => ('\'' :: body, rest)
  | '"' :: cs => (scanQuotedRest '"' cs).map fun (body, rest) => ('"' :: body, rest)
  | _ => none

/-- A minus sign if there is one. -/
def takeSign : List Char → List Char × List Char
  | '-' :: cs => (['-'], cs)
  | cs => ([], cs)

/-- A point with digits after it if there are such. -/
def takeFraction : List Char → List Char × List Char
  | '.' :: cs =>
    match scanDigits cs with
    | some (ds, rest) => ('.' :: ds, rest)
    | none => ([], '.' :: cs)
  | cs => ([], cs)

/-- The sign of an exponent if there is one. -/
def takeExponentSign : List Char → List Char × List Char
  | '+' :: cs => (['+'], cs)
  | '-' :: cs => (['-'], cs)
  | cs => ([], cs)

/-- The mark `e` in either case, a sign or none, and digits, if there are such. -/
def takeExponent : List Char → List Char × List Char
  | [] => ([], [])
  | mark :: cs =>
    if mark = 'e' ∨ mark = 'E' then
      let (sign, after) := takeExponentSign cs
      match scanDigits after with
      | some (ds, rest) => (mark :: sign ++ ds, rest)
      | none => ([], mark :: cs)
    else ([], mark :: cs)

/-- A number: a minus sign or none, digits, a fraction or none, an exponent or none, not followed by
a character of a word. -/
def scanNumber : Text.Scanner (List Char) := fun cs =>
  let (sign, afterSign) := takeSign cs
  match scanDigits afterSign with
  | none => none
  | some (whole, afterWhole) =>
    let (fraction, afterFraction) := takeFraction afterWhole
    let (exponent, rest) := takeExponent afterFraction
    if startsWord rest then none else some (sign ++ whole ++ fraction ++ exponent, rest)

/-- The words that the grammar looks for by name. -/
inductive Lexeme
  | keyword (k : Keyword)
  | name
  | count
  | quoted
  | number
  | boolean
  | null
  deriving DecidableEq, Repr

/-- Takes a word of the given kind from the front of a text. -/
def Lexeme.scan : Lexeme → Text.Scanner (List Char)
  | .keyword k => scanWord k.word.toList
  | .name => scanName
  | .count => scanCount
  | .quoted => scanQuoted
  | .number => scanNumber
  | .boolean => fun cs => (scanWord "true".toList cs).or (scanWord "false".toList cs)
  | .null => scanWord "null".toList

end EntityQuery.Grammar
