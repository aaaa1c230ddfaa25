import EntityQuery.Decimal.Whole
import EntityQuery.Json.Basic
import EntityQuery.Text.Escape
import EntityQuery.Text.Front

/-! # Reading JSON

A text is read as exactly one JSON value with blanks around it, or not at all. Every step takes at
least one character, so as many steps as there are characters are enough. -/

namespace EntityQuery.Json

/-- The blanks of JSON. -/
def blanks : List Char :=
  [' ', '\t', '\n', '\r']

/-! ### Strings -/

/-- What a string is made of: characters, and the units of sixteen bits that escapes name. -/
inductive Piece
  | char (c : Char)
  | unit (n : Nat)

/-- The character that a short escape stands for. -/
def escaped? (c : Char) : Option Char :=
  if c = '/' then some '/' else Text.shortEscape? c

/-- The pieces of a string up to its closing quote, and what follows. Control characters have to be
escaped. -/
def readPieces : Text.Scanner (List Piece)
  | [] => none
  | '"' :: cs => some ([], cs)
  | '\\' :: 'u' :: a :: b :: c :: d :: cs =>
    (Text.hexValue? [a, b, c, d]).bind fun n =>
      (readPieces cs).map fun (ps, rest) => (.unit n :: ps, rest)
  | '\\' :: c :: cs =>
    (escaped? c).bind fun e => (readPieces cs).map fun (ps, rest) => (.char e :: ps, rest)
  | c :: cs =>
    if c.toNat < 0x20 || c == '\\' then none
    else (readPieces cs).map fun (ps, rest) => (.char c :: ps, rest)

/-- A unit that begins a pair. -/
def isHighSurrogate (n : Nat) : Bool := 0xD800 ≤ n && n < 0xDC00

/-- A unit that ends a pair. -/
def isLowSurrogate (n : Nat) : Bool := 0xDC00 ≤ n && n < 0xE000

/-- The text of some pieces, unless half of a pair stands alone. -/
def joinPieces : List Piece → Option (List Char)
  | [] => some []
  | .char c :: ps => (joinPieces ps).map (c :: ·)
  | .unit high :: .unit low :: ps =>
    if isHighSurrogate high then
      if isLowSurrogate low then
        (joinPieces ps).map (Char.ofNat (0x10000 + (high - 0xD800) * 0x400 + (low - 0xDC00)) :: ·)
      else none
    else if isLowSurrogate high then none
    else (joinPieces (.unit low :: ps)).map (Char.ofNat high :: ·)
  | .unit n :: ps =>
    if isHighSurrogate n || isLowSurrogate n then none
    else (joinPieces ps).map (Char.ofNat n :: ·)

/-- A string after its opening quote. -/
def readString (cs : List Char) : Option (Json × List Char) :=
  (readPieces cs).map fun (ps, rest) =>
    match joinPieces ps with
    | some text => (.string (String.ofList text), rest)
    | none => (.unreadable, rest)

/-! ### Numbers -/

/-- The digits before the point: a lone zero, or digits that do not begin with zero. -/
def readWhole (cs : List Char) : Option (List Char × List Char) :=
  match cs with
  | '0' :: rest => if rest.head?.any Char.isDigit then none else some (['0'], rest)
  | _ =>
    let ds := cs.takeWhile Char.isDigit
    if ds.isEmpty then none else some (ds, cs.dropWhile Char.isDigit)

/-- A point and digits, if there is a point. -/
def readFraction : Text.Scanner (Option (List Char))
  | '.' :: cs =>
    let ds := cs.takeWhile Char.isDigit
    if ds.isEmpty then none else some (some ds, cs.dropWhile Char.isDigit)
  | cs => some (none, cs)

/-- The digits of an exponent after its mark and sign. -/
def readExponentDigits (negative : Bool) (cs : List Char) : Option (Option Int × List Char) :=
  let ds := cs.takeWhile Char.isDigit
  if ds.isEmpty then none
  else
    let n : Int := Decimal.digitsValue ds
    some (some (if negative then -n else n), cs.dropWhile Char.isDigit)

/-- The mark `e` in either case, a sign or none, and digits, if there is a mark. -/
def readExponent : Text.Scanner (Option Int)
  | [] => some (none, [])
  | mark :: cs =>
    if mark = 'e' ∨ mark = 'E' then
      match cs with
      | '+' :: ds => readExponentDigits false ds
      | '-' :: ds => readExponentDigits true ds
      | ds => readExponentDigits false ds
    else some (none, mark :: cs)

/-- A number. -/
def readNumber (cs : List Char) : Option (Json × List Char) := do
  let (negative, cs) := Decimal.takeMinus cs
  let (whole, cs) ← readWhole cs
  let (fraction, cs) ← readFraction cs
  let (exponent, cs) ← readExponent cs
  let places := fraction.getD []
  some (.number
    { negative
      digits := Decimal.digitsValue (whole ++ places)
      exponent := exponent.getD 0 - places.length
      whole := fraction.isNone && exponent.isNone }, cs)

/-! ### Values -/

/-- The name of a member, if it is a text, and the colon after it. -/
def readName (cs : List Char) : Option (Option String × List Char) :=
  match cs with
  | '"' :: rest =>
    (readPieces rest).bind fun (ps, rest) =>
      match Text.skip blanks rest with
      | ':' :: rest => some ((joinPieces ps).map String.ofList, rest)
      | _ => none
  | _ => none

/-- The object with the given members, each with its name if that is a text. -/
def ofMembers (members : List (Option String × Json)) : Json :=
  match members.mapM fun (name, value) => name.map (·, value) with
  | some members => .object members
  | none => .unreadable

mutual

/-- A value at the front of a text. -/
def readValue : Nat → Text.Scanner Json
  | 0, _ => none
  | fuel + 1, cs =>
    match cs with
    | [] => none
    | '"' :: rest => readString rest
    | '[' :: rest =>
      match Text.skip blanks rest with
      | ']' :: rest => some (.array [], rest)
      | rest => (readItems fuel rest).map fun (items, rest) => (.array items, rest)
    | '\x7b' :: rest =>
      match Text.skip blanks rest with
      | '\x7d' :: rest => some (.object [], rest)
      | rest => (readMembers fuel rest).map fun (members, rest) => (ofMembers members, rest)
    | 'n' :: rest => (Text.expect "ull".toList rest).map (.null, ·)
    | 't' :: rest => (Text.expect "rue".toList rest).map (.boolean true, ·)
    | 'f' :: rest => (Text.expect "alse".toList rest).map (.boolean false, ·)
    | _ => readNumber cs

/-- The items of an array up to its closing bracket. -/
def readItems : Nat → Text.Scanner (List Json)
  | 0, _ => none
  | fuel + 1, cs =>
    (readValue fuel (Text.skip blanks cs)).bind fun (item, rest) =>
      match Text.skip blanks rest with
      | ',' :: rest => (readItems fuel rest).map fun (items, rest) => (item :: items, rest)
      | ']' :: rest => some ([item], rest)
      | _ => none

/-- The members of an object up to its closing brace. -/
def readMembers : Nat → Text.Scanner (List (Option String × Json))
  | 0, _ => none
  | fuel + 1, cs =>
    (readName (Text.skip blanks cs)).bind fun (name, rest) =>
      (readValue fuel (Text.skip blanks rest)).bind fun (value, rest) =>
        match Text.skip blanks rest with
        | ',' :: rest =>
          (readMembers fuel rest).map fun (members, rest) => ((name, value) :: members, rest)
        | '\x7d' :: rest => some ([(name, value)], rest)
        | _ => none

end

/-- How deep arrays and objects that are read may be nested in a text. -/
def nestingLimit : Nat := 127

/-- The value that a text stands for. -/
def read (text : String) : Option Json :=
  let cs := Text.skip blanks text.toList
  match readValue (2 * cs.length + 1) cs with
  | some (j, rest) => if (Text.skip blanks rest).isEmpty then some (j.cut nestingLimit) else none
  | none => none

end EntityQuery.Json
