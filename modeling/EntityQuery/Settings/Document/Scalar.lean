import EntityQuery.Decimal.Double
import EntityQuery.Decimal.Whole
import EntityQuery.Settings.Node

/-! # Simple values of a settings document

Truth values, whole numbers, floats and dates are written without quotes. Underscores may stand
between the digits of a number. A whole number has to fit 64 bits with a sign. -/

namespace EntityQuery.Settings.Document

/-! ### Numbers -/

/-- Digits without the underscores between them. -/
def withoutUnderscores (isDigit : Char → Bool) : List Char → Option (List Char)
  | [] => none
  | [c] => if isDigit c then some [c] else none
  | c :: '_' :: rest => if isDigit c then (withoutUnderscores isDigit rest).map (c :: ·) else none
  | c :: rest => if isDigit c then (withoutUnderscores isDigit rest).map (c :: ·) else none

/-- A whole number in the range of 64 bits with a sign. -/
def inRange? (n : Int) : Option Node :=
  if Int64.minValue.toInt ≤ n ∧ n ≤ Int64.maxValue.toInt then some (.integer n) else none

/-- A text without its sign, and whether the sign was minus. -/
def takeSign : List Char → Bool × List Char
  | '+' :: cs => (false, cs)
  | '-' :: cs => (true, cs)
  | cs => (false, cs)

/-- Decimal digits with no zero in front of others. -/
def plainDigits? (cs : List Char) : Option (List Char) :=
  (withoutUnderscores Char.isDigit cs).bind fun ds =>
    if ds.head? = some '0' ∧ 1 < ds.length then none else some ds

/-- A decimal whole number. -/
def integer? (cs : List Char) : Option Node :=
  let (negative, rest) := takeSign cs
  (plainDigits? rest).bind fun ds =>
    let n : Int := Decimal.digitsValue ds
    inRange? (if negative then -n else n)

/-- The value of a digit of any base up to sixteen. -/
def digitValue (c : Char) : Nat :=
  if c.isDigit then c.toNat - '0'.toNat else c.toLower.toNat - 'a'.toNat + 10

/-- A whole number in another base, after the letter that names the base. -/
def inBase? (base : Nat) (isDigit : Char → Bool) (cs : List Char) : Option Node :=
  (withoutUnderscores isDigit cs).bind fun ds =>
    inRange? (ds.foldl (fun n d => n * base + digitValue d) 0 : Nat)

/-- A hexadecimal digit. -/
def isHexDigit (c : Char) : Bool :=
  c.isDigit || ('a' ≤ c.toLower && c.toLower ≤ 'f')

/-- A whole number in base sixteen, eight or two. -/
def based? : List Char → Option Node
  | '0' :: 'x' :: cs => inBase? 16 isHexDigit cs
  | '0' :: 'o' :: cs => inBase? 8 (fun c => '0' ≤ c && c ≤ '7') cs
  | '0' :: 'b' :: cs => inBase? 2 (fun c => c == '0' || c == '1') cs
  | _ => none

/-- The characters of digits. -/
def isDigitOrUnderscore (c : Char) : Bool :=
  c.isDigit || c == '_'

/-- The digits after the point, none where there is no point. -/
def fraction? : List Char → Option (List Char × List Char)
  | '.' :: cs =>
    (withoutUnderscores Char.isDigit (cs.takeWhile isDigitOrUnderscore)).map fun ds =>
      (ds, cs.dropWhile isDigitOrUnderscore)
  | cs => some ([], cs)

/-- The exponent at the end of a float, zero where there is none. -/
def exponent? : List Char → Option Int
  | [] => some 0
  | mark :: cs =>
    if mark = 'e' ∨ mark = 'E' then
      let (negative, ds) := takeSign cs
      (withoutUnderscores Char.isDigit ds).map fun ds =>
        let n : Int := Decimal.digitsValue ds
        if negative then -n else n
    else none

/-- A float. One that would be infinite is refused. -/
def float? (cs : List Char) : Option Node := do
  let (negative, rest) := takeSign cs
  if rest = "inf".toList then return .float (Decimal.ofMagnitude negative Decimal.infinityMagnitude)
  if rest = "nan".toList then return .float (0.0 / 0.0)
  let whole ← plainDigits? (rest.takeWhile isDigitOrUnderscore)
  let rest := rest.dropWhile isDigitOrUnderscore
  if rest.isEmpty then none
  let (places, rest) ← fraction? rest
  let exponent ← exponent? rest
  let digits := Decimal.digitsValue (whole ++ places)
  let magnitude := Decimal.decimalMagnitude digits (exponent - places.length)
  if magnitude = Decimal.infinityMagnitude ∧ negative = false then none
  else some (.float (Decimal.ofMagnitude negative magnitude))

/-! ### Dates and times -/

/-- The value of two digits. -/
def twoDigits? (a b : Char) : Option Nat :=
  if a.isDigit && b.isDigit then some (Decimal.digitsValue [a, b]) else none

/-- The number of days of a month. -/
def daysIn (year month : Nat) : Nat :=
  if month = 2 then
    if year % 4 = 0 ∧ (year % 100 ≠ 0 ∨ year % 400 = 0) then 29 else 28
  else if month ∈ [4, 6, 9, 11] then 30
  else 31

/-- The text after a date, if it begins with one. -/
def afterDate? : List Char → Option (List Char)
  | a :: b :: c :: d :: '-' :: e :: f :: '-' :: g :: h :: rest => do
    let century ← twoDigits? a b
    let year ← twoDigits? c d
    let month ← twoDigits? e f
    let day ← twoDigits? g h
    if 1 ≤ month ∧ month ≤ 12 ∧ 1 ≤ day ∧ day ≤ daysIn (century * 100 + year) month then some rest
    else none
  | _ => none

/-- The text after the fraction of a second, if it begins with one. -/
def afterSecondFraction? : List Char → Option (List Char)
  | '.' :: cs => if cs.head?.any Char.isDigit then some (cs.dropWhile Char.isDigit) else none
  | cs => some cs

/-- The text after a time of day, if it begins with one. A minute may have a leap second. -/
def afterTime? : List Char → Option (List Char)
  | a :: b :: ':' :: c :: d :: ':' :: e :: f :: rest => do
    let hour ← twoDigits? a b
    let minute ← twoDigits? c d
    let second ← twoDigits? e f
    if hour ≤ 23 ∧ minute ≤ 59 ∧ second ≤ 60 then afterSecondFraction? rest else none
  | _ => none

/-- The distance from universal time, or nothing. -/
def isOffset : List Char → Bool
  | [] => true
  | [z] => z == 'Z' || z == 'z'
  | [sign, a, b, ':', c, d] =>
    (sign == '+' || sign == '-') && (twoDigits? a b).any (· ≤ 23) && (twoDigits? c d).any (· ≤ 59)
  | _ => false

/-- A date, a time of day, or both with an offset or without. -/
def isMoment (cs : List Char) : Bool :=
  match afterDate? cs with
  | some [] => true
  | some (mark :: rest) =>
    (mark == 'T' || mark == 't' || mark == ' ') && (afterTime? rest).any isOffset
  | none => afterTime? cs == some []

/-- A date or time. It is kept as a table of its text under a name that no setting has. -/
def moment? (cs : List Char) : Option Node :=
  if isMoment cs then some (.table [("datetime", .text (String.ofList cs))]) else none

/-! ### All simple values -/

/-- The value of a word without quotes. -/
def scalar? (cs : List Char) : Option Node :=
  if cs = "true".toList then some (.boolean true)
  else if cs = "false".toList then some (.boolean false)
  else (integer? cs).or ((based? cs).or ((float? cs).or (moment? cs)))

/-- The characters of words without quotes. -/
def isScalarChar (c : Char) : Bool :=
  c.isAlphanum || c == '+' || c == '-' || c == '_' || c == '.' || c == ':'

/-- A word without quotes and what follows. The one blank that may stand within is the one between a
date and a time. -/
def takeScalar (cs : List Char) : List Char × List Char :=
  let word := cs.takeWhile isScalarChar
  match cs.dropWhile isScalarChar with
  | ' ' :: d :: rest =>
    if afterDate? word = some [] ∧ d.isDigit = true then
      (word ++ ' ' :: (d :: rest).takeWhile isScalarChar, (d :: rest).dropWhile isScalarChar)
    else (word, ' ' :: d :: rest)
  | rest => (word, rest)

end EntityQuery.Settings.Document
