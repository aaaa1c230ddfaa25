import EntityQuery.Decimal.Shortest
import EntityQuery.Decimal.Whole

/-! # Decimal text

How the digits of a double are laid out. A `Layout` says for which values the point is written in
its place; all others get one digit before the point and an exponent. The leading exponent of a
value is the power of ten of its first digit. -/

namespace EntityQuery.Decimal

/-- The leading exponents that are written positionally. -/
structure Layout where
  least : Int
  greatest : Int
  deriving DecidableEq, Repr

/-- The value `digits * 10 ^ exponent` with the point in its place and at least one digit on either
side of it. -/
def writePositional (digits : List Char) (exponent : Int) : List Char :=
  if 0 ≤ exponent then digits ++ List.replicate exponent.toNat '0' ++ ['.', '0']
  else
    let places := (-exponent).toNat
    let padded := List.replicate (places + 1 - digits.length) '0' ++ digits
    let whole := padded.length - places
    padded.take whole ++ '.' :: padded.drop whole

/-- The value `digits * 10 ^ exponent` with one digit before the point, no point after a single
digit, and the leading exponent after the mark `e`. -/
def writeExponential (digits : List Char) (leading : Int) : List Char :=
  match digits with
  | [] => 'e' :: writeInt leading
  | [d] => d :: 'e' :: writeInt leading
  | d :: rest => d :: '.' :: rest ++ 'e' :: writeInt leading

/-- The value `digits * 10 ^ exponent` as the layout asks. Zero is written positionally. -/
def Layout.writeDecimal (l : Layout) (digits : Nat) (exponent : Int) : List Char :=
  let text := writeNat digits
  let leading := exponent + text.length - 1
  if l.least ≤ leading ∧ leading ≤ l.greatest then writePositional text exponent
  else writeExponential text leading

/-- A double in the fewest digits that read back. -/
def Layout.writeDouble (l : Layout) (x : Double) : List Char :=
  let (digits, exponent) := x.shortest
  let text := l.writeDecimal digits exponent
  if x.negative then '-' :: text else text

/-- The text of any double. -/
def Layout.write (l : Layout) (x : Float) : List Char :=
  match classify x with
  | .notANumber => ['N', 'a', 'N']
  | .infinite false => ['i', 'n', 'f']
  | .infinite true => ['-', 'i', 'n', 'f']
  | .finite value => l.writeDouble value

end EntityQuery.Decimal
