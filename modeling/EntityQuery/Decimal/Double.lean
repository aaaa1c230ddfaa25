/-! # Doubles as whole numbers of units

A finite double is a whole number of units of `2 ^ -1074`: a sign, a mantissa below `2 ^ 53` and a
scale, for `± mantissa * 2 ^ scale` units. Its bit pattern, the sign bit apart, is
`scale * 2 ^ 52 + mantissa`; so rounding a fraction to the nearest double is one rounded division
(`nearestMagnitude`), and a mantissa that rounds up to `2 ^ 53` carries into the scale by itself. -/

namespace EntityQuery.Decimal

/-- The value `± mantissa * 2 ^ scale` units of `2 ^ -1074`. -/
structure Double where
  negative : Bool
  mantissa : Nat
  scale : Nat
  deriving DecidableEq, Repr, Inhabited

/-- What a bit pattern of 64 bits stands for. -/
inductive DoubleClass
  | notANumber
  | infinite (negative : Bool)
  | finite (value : Double)
  deriving DecidableEq, Repr, Inhabited

/-- The bit pattern of infinity, and the least of those that stand for no number. -/
def infinityMagnitude : Nat := 2047 * Nat.pow 2 52

/-- Reads the bit pattern of a double. The scale is the exponent field less one, where zero and one
both give the scale zero. -/
def classify (x : Float) : DoubleClass :=
  let bits := x.toBits.toNat
  let negative := decide (Nat.pow 2 63 ≤ bits)
  let magnitude := bits % Nat.pow 2 63
  if magnitude < infinityMagnitude then
    let scale := magnitude / Nat.pow 2 52 - 1
    .finite { negative, mantissa := magnitude - scale * Nat.pow 2 52, scale }
  else if magnitude = infinityMagnitude then .infinite negative
  else .notANumber

/-- The quotient `num / den` rounded to a whole number; a half goes to the even neighbour. -/
def roundHalfEven (num den : Nat) : Nat :=
  let quotient := num / den
  let rest := 2 * (num % den)
  if rest < den then quotient
  else if den < rest then quotient + 1
  else quotient + quotient % 2

/-- The bit pattern of the double nearest to `num / den` units, infinity when it is out of range. -/
def nearestMagnitude (num den : Nat) : Nat :=
  let scale := (num / den).log2 - 52
  min infinityMagnitude (scale * Nat.pow 2 52 + roundHalfEven num (den * Nat.pow 2 scale))

/-- The double with a given sign and bit pattern. -/
def ofMagnitude (negative : Bool) (magnitude : Nat) : Float :=
  Float.ofBits (UInt64.ofNat (if negative then Nat.pow 2 63 + magnitude else magnitude))

/-- The bit pattern of the double nearest to `digits * 10 ^ exponent`. Exponents at which the value
is sure to be out of range on either side are settled without raising ten to them. -/
def decimalMagnitude (digits : Nat) (exponent : Int) : Nat :=
  if digits = 0 then 0
  else if 310 < exponent then infinityMagnitude
  else if exponent + digits.log2 + 1 < -330 then 0
  else if 0 ≤ exponent then nearestMagnitude (digits * Nat.pow 10 exponent.toNat * Nat.pow 2 1074) 1
  else nearestMagnitude (digits * Nat.pow 2 1074) (Nat.pow 10 (-exponent).toNat)

/-- The double nearest to `± digits * 10 ^ exponent`; a half goes to the even neighbour. -/
def nearest (negative : Bool) (digits : Nat) (exponent : Int) : Float :=
  ofMagnitude negative (decimalMagnitude digits exponent)

end EntityQuery.Decimal
